import ComposableIndexes.Abstract.Queries
import ComposableIndexes.Abstract.Runs

namespace ComposableIndexes

namespace Collection

variable {T : Type} [JsValue T] {c : Collection T} {ix : RegisteredIndex T}

omit [JsValue T] in
theorem sameOn_refl {A : Type} (S : Contents A) (ctx : IndexContext T) : SameOn S ctx ctx := fun _ _ => rfl

theorem definedOn_context (hd : ∀ i v, c.contents i = some v → JsValue.Defined v) :
    DefinedOn c.contents c.context := by
  intro id hid
  have hg : c.context.get id = c.contents id.bits := get_eq hd id
  rw [hg]
  exact hid

def parityAndOrder : UnregisteredIndex ℕ :=
  .zip (.group (fun n => n % 2) .hashIndex) (.btreeIndex (SortedBTree.installed ℕ IdSet))

def movedCalls : List (Call ℕ) :=
  [.registerIndex parityAndOrder,.add 5,.add 6,.set (Id.fromLong ⟨1,true⟩) 8]

def moved : Collection ℕ := (Procedure.play Call.exec movedCalls new).2

theorem moved_reached : Reached Call.exec Call.Ordinary new moved :=
  Procedure.reached_play movedCalls .start (by decide)

theorem incremental_agrees_with_rebuild (h : Reached Call.exec Call.Ordinary new c) (hix : ix ∈ c.indexes)
    (hl : ix.expr.Lawful) : ∃ s log c', registerIndex ix.expr c = .returned ⟨ix.expr,s,log⟩ c' ∧
      ∀ {R : Type} (q : Query T ix.expr R), q.Agree c.context c'.context ix.state s := by
  have hc := ordinary_consistent h
  have ht := hc.tracks ix hix
  obtain ⟨s,log,hr,hs⟩ := registerIndex_returned (fun _ hid => hid) ht.holds
  refine ⟨s,log,_,hr,?_⟩
  intro R q
  exact q.agree_of_holds hl ht.holds hs.holds (sameOn_refl _ _)

theorem rebuild_after_move : ∃ ix ∈ moved.indexes, ix.expr.Lawful ∧
    ∃ s log c', registerIndex ix.expr moved = .returned ⟨ix.expr,s,log⟩ c' ∧
      ∀ {R : Type} (q : Query ℕ ix.expr R), q.Agree moved.context c'.context ix.state s :=
  ⟨_,List.mem_singleton.mpr rfl,⟨trivial,trivial,trivial⟩,
    incremental_agrees_with_rebuild moved_reached (List.mem_singleton.mpr rfl) ⟨trivial,trivial,trivial⟩⟩

theorem exec_returns_of_noUnique {P : Id → Prop} (hPu : ∀ id : Id, id.Unsigned → P id) (hc : c.Consistent P)
    (hix : ∀ ix ∈ c.indexes, ix.expr.NoUnique) {call : Call T} (ha : call.Admissible P c)
    (hcall : ∀ e, call = .registerIndex e → e.NoUnique) : (call.exec c).Returns := by
  have hn (S : Contents T) (u : Update T) : ¬c.Clash S u := by
    rintro ⟨ix,hm,hcl⟩
    exact ix.expr.not_clashes_of_noUnique (hix ix hm) S u hcl
  rcases Call.exec_cases hPu hc call ha with ⟨_,c',hr,_⟩ | ⟨hcf,_⟩
  · exact ⟨_,c',hr⟩
  · exfalso
    cases call with
    | registerIndex e =>
      obtain ⟨R,id,v,ho⟩ := hcf
      exact e.not_clashes_of_noUnique (hcall e rfl) R _ (.inl ho.rejects)
    | add v => exact hn _ _ hcf
    | set id v => exact hn _ _ hcf
    | delete id => exact hcf
    | alter id f => exact not_alterClash hn _ _ hcf
    | adjust id f => exact not_alterClash hn _ _ hcf

theorem call_and_query_outcomes (h : Reached Call.exec Call.Proper new c) :
    (∀ call : Call T, call.Proper c →
      (call.exec c).Returns ∨ ∃ existingId existingValue c', call.exec c = .thrown (.conflict existingId existingValue) c') ∧
    (∀ ix ∈ c.indexes, ∀ {R : Type} (q : Query T ix.expr R),
      ∃ r, q.run c.context ix.state = .ok r ∧ ∀ it ∈ q.items r, it.value.isSome = true) ∧
    ((∀ ix ∈ c.indexes, ix.expr.NoUnique) → ∀ call : Call T, call.Proper c →
      (∀ e, call = .registerIndex e → e.NoUnique) → (call.exec c).Returns) := by
  have hc := proper_consistent h
  refine ⟨?_,?_,?_⟩
  · intro call hok
    rcases Call.exec_cases (fun _ _ => trivial) hc call hok.admissible with ⟨_,c',hr,_⟩ | ⟨_,id,c',hr⟩
    · exact .inl ⟨_,c',hr⟩
    · exact .inr ⟨id,_,c',hr⟩
  · intro ix hix R q
    exact q.run_defined (hc.tracks ix hix).holds (definedOn_context hc.defined)
  · intro hix call hok hcall
    exact exec_returns_of_noUnique (fun _ _ => trivial) hc hix hok.admissible hcall

theorem delete_after_move : ((Call.delete (Id.fromLong ⟨1,true⟩)).exec moved).Returns :=
  (call_and_query_outcomes (reached_proper moved_reached)).2.2
    (fun ix hix => by rw [List.mem_singleton.mp hix]; exact ⟨trivial,trivial,trivial⟩) _ (by decide) (by simp)

def signedCalls : List (Call ℕ) :=
  [.registerIndex .hashIndex,.set (Id.fromLong ⟨BitVec.allOnes 64,false⟩) 5,
    .set (Id.fromLong ⟨BitVec.allOnes 64 - 1,true⟩) 6,.add 7,.delete (Id.fromLong ⟨BitVec.allOnes 64,true⟩)]

theorem signed_id_leaves_undefined_item :
    Procedure.Accepted Call.exec (fun c call => call.DefinedValues ∧ call.BelowTop c) signedCalls new ∧
    ∃ ix ∈ (Procedure.play Call.exec signedCalls new).2.indexes, ∃ (q : Query ℕ ix.expr (List (Item ℕ))) (r : _),
      q.run (Procedure.play Call.exec signedCalls new).2.context ix.state = .ok r ∧ ∃ it ∈ q.items r, it.value = none :=
  ⟨by decide,_,List.mem_singleton.mpr rfl,.hashEq 5,_,rfl,_,List.mem_singleton.mpr rfl,rfl⟩

end Collection

end ComposableIndexes
