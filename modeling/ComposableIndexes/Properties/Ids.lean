import ComposableIndexes.Abstract.Runs

namespace ComposableIndexes

namespace Call

variable {T : Type}

structure Counted (c : Collection T) (call : Call T) : Prop where
  unsigned : call.UnsignedIds
  below : call.BelowTop c

instance (c : Collection T) (call : Call T) : Decidable (call.Counted c) :=
  decidable_of_iff (call.UnsignedIds ∧ call.BelowTop c) ⟨fun h => ⟨h.1,h.2⟩,fun h => ⟨h.unsigned,h.below⟩⟩

end Call

namespace Collection

variable {T : Type} [JsValue T] {c : Collection T}

theorem visited_counter (h : Visited Call.exec Call.Counted new c) : c.Counter :=
  h.invariant counter_new (fun _ call hc hok => hc.exec call hok.unsigned hok.below)

theorem add_id {v : T} {id : Id} {c' : Collection T} (hr : add v c = .returned id c') : id = c.nextId := by
  rw [add_apply,Procedure.bind_apply] at hr
  split at hr
  · cases hr
    rfl
  · cases hr

theorem add_contents (c : Collection T) (v : T) : (add v c).state.contents = c.contents.set c.nextId.bits v := by
  obtain ⟨ixs,he⟩ := propagateUpdate_frame (.add c.nextId v)
    { c with last := c.nextId, store := c.store.set c.nextId v }
  rw [add_apply,Procedure.bind_apply,← find_set_eq]
  cases ho : propagateUpdate (.add c.nextId v) { c with last := c.nextId, store := c.store.set c.nextId v } <;>
    rw [ho] at he <;> exact congrArg contents he

theorem add_never_overwrites_iff (h : Visited Call.exec Call.Counted new c) (v : T) :
    (∀ id c', add v c = .returned id c' → id = c.nextId) ∧
    ((c.contents c.nextId.bits = none ∧ ∀ i w, c.contents i = some w → (add v c).state.contents i = some w) ↔
      c.last.bits ≠ BitVec.allOnes 64 ∨ c.contents 0 = none) := by
  refine ⟨fun id c' hr => add_id hr,?_⟩
  have hkept : c.contents c.nextId.bits = none →
      ∀ i w, c.contents i = some w → (add v c).state.contents i = some w := by
    intro hf i w hw
    have hne : i ≠ c.nextId.bits := by
      rintro rfl
      rw [hf] at hw
      cases hw
    rw [add_contents,PartialMap.set_apply,if_neg hne,hw]
  by_cases ht : c.last.bits = BitVec.allOnes 64
  · have hz : c.nextId.bits = 0 := by
      have he : c.nextId.bits = c.last.bits + 1 := rfl
      rw [he,ht]
      rfl
    rw [hz] at hkept ⊢
    constructor
    · exact fun hp => .inr hp.1
    · rintro (hn | hf)
      · exact absurd ht hn
      · exact ⟨hf,hkept hf⟩
  · have hf := (visited_counter h).nextId_fresh ht
    exact iff_of_true ⟨hf,hkept hf⟩ (.inl ht)

def topCalls : List (Call ℕ) := [.set (Id.fromLong ⟨BitVec.allOnes 64,true⟩) 1]

theorem add_wraps_to_free_id : (add 3 (Procedure.play Call.exec topCalls new).2).state.contents
    (BitVec.allOnes 64) = some 1 :=
  ((add_never_overwrites_iff (Procedure.reached_play topCalls .start (by decide)).visited 3).2.mpr (.inr rfl)).2 _ 1 rfl

def wrapCalls : List (Call ℕ) :=
  [.set (Id.fromLong ⟨BitVec.allOnes 64,true⟩) 1,.set (Id.fromLong ⟨0,true⟩) 2]

theorem add_wraps_onto_stored_id : Procedure.Accepted Call.exec (fun _ call => call.UnsignedIds) wrapCalls new ∧
    ∃ id c', add 3 (Procedure.play Call.exec wrapCalls new).2 = .returned id c' ∧
      (Procedure.play Call.exec wrapCalls new).2.get id = some 2 ∧ c'.get id = some 3 :=
  ⟨by decide,_,_,rfl,rfl,rfl⟩

end Collection

end ComposableIndexes
