import ComposableIndexes.Abstract.Lockstep

namespace ComposableIndexes

namespace Index

variable {In Out σ : Type}

def deliverAll (ix : Index In Out σ) : List (IndexContext Out × Update In) → Procedure (Exception Out) σ Unit
  | [] => pure ()
  | (ctx,u) :: rest => do
      ix.deliver ctx u
      deliverAll ix rest

end Index

namespace PremapIndex

variable {In A B Out σ : Type}

def passed (f : In → Option A) (us : List (IndexContext Out × Update In)) : List (IndexContext Out × Update A) :=
  us.filterMap (fun p => (filterMapUpdate f p.2).map (fun w => (p.1,w)))

theorem deliver_some {f : In → Option A} {u : Update In} {w : Update A} (h : filterMapUpdate f u = some w)
    (inner : Index A Out σ) (ctx : IndexContext Out) : (index f inner).deliver ctx u = inner.deliver ctx w := by
  simp only [Index.deliver,index,h]

theorem deliver_none {f : In → Option A} {u : Update In} (h : filterMapUpdate f u = none)
    (inner : Index A Out σ) (ctx : IndexContext Out) (s : σ) : (index f inner).deliver ctx u s = .returned () s := by
  simp only [Index.deliver,index,h]
  rfl

theorem deliverAll_passed (f : In → Option A) (inner : Index A Out σ) (us : List (IndexContext Out × Update In)) :
    (index f inner).deliverAll us = inner.deliverAll (passed f us) := by
  funext s
  induction us generalizing s with
  | nil => rfl
  | cons p rest ih =>
    obtain ⟨ctx,u⟩ := p
    cases hw : filterMapUpdate f u with
    | none =>
      have hp : passed f ((ctx,u) :: rest) = passed f rest := by simp [passed,hw]
      rw [hp,← ih s]
      exact Procedure.bind_returned (deliver_none hw inner ctx s)
    | some w =>
      have hp : passed f ((ctx,u) :: rest) = (ctx,w) :: passed f rest := by simp [passed,hw]
      rw [hp,Index.deliverAll,Index.deliverAll,deliver_some hw inner ctx,Procedure.bind_apply,Procedure.bind_apply]
      cases inner.deliver ctx w s with
      | returned _ s' => exact ih s'
      | thrown e s' => rfl

theorem passed_valid (f : In → Option A) {S R : Contents In} {us : List (IndexContext Out × Update In)}
    (h : ValidLog S (us.map Prod.snd) R) :
    ValidLog (S.filterMap f) ((passed f us).map Prod.snd) (R.filterMap f) := by
  have hp : (passed f us).map Prod.snd = (us.map Prod.snd).filterMap (filterMapUpdate f) := by
    simp [passed,List.map_filterMap,List.filterMap_map,Function.comp_def]
  rw [hp]
  exact h.filterMap f

theorem onUpdate_fused (f : In → Option A) (g : A → Option B) (inner : Index B Out σ) (ctx : IndexContext Out)
    (u : Update In) : (index f (index g inner)).onUpdate ctx u =
      (index (fun x => (f x).bind g) inner).onUpdate ctx u := by
  have hb := filterMapUpdate_bind f g u
  cases hw : filterMapUpdate f u with
  | none =>
    rw [hw,Option.bind_none] at hb
    simp only [index,hw,← hb]
  | some w =>
    rw [hw,Option.bind_some] at hb
    simp only [index,hw,hb]

end PremapIndex

theorem premap_filterMaps_the_log {T A : Type} [JsValue T] (f : T → Option A) :
    (∀ {Out σ : Type} (inner : Index A Out σ) (us : List (IndexContext Out × Update T)) (S R : Contents T),
      ValidLog S (us.map Prod.snd) R →
        (PremapIndex.index f inner).deliverAll us = inner.deliverAll (PremapIndex.passed f us) ∧
        ValidLog (S.filterMap f) ((PremapIndex.passed f us).map Prod.snd) (R.filterMap f)) ∧
    ∀ {B : Type} (g : A → Option B) (ix : UnregisteredIndex B) (c : Collection T) (calls : List (Call T)),
      let nested := Procedure.play Call.exec (.registerIndex (.premap f (.premap g ix)) :: calls) c
      let fused := Procedure.play Call.exec (.registerIndex (.premap (fun x => (f x).bind g) ix) :: calls) c
      nested.1 = fused.1 ∧ (nested = fused ∨ fused.2.store = nested.2.store ∧
        ∃ before s s' log after, before.length = c.indexes.length ∧ nested.2.indexes = before ++ ⟨.premap f (.premap g ix),s,log⟩ :: after ∧
          fused.2.indexes = before ++ ⟨.premap (fun x => (f x).bind g) ix,s',log⟩ :: after ∧
          ∀ {R : Type} (q : Query T ix R), (Query.premapGet (f := f) (Query.premapGet (f := g) q)).run nested.2.context s =
            (Query.premapGet (f := fun x => (f x).bind g) q).run fused.2.context s') := by
  refine ⟨?_,?_⟩
  · intro Out σ inner us S R h
    exact ⟨PremapIndex.deliverAll_passed f inner us,PremapIndex.passed_valid f h⟩
  · intro B g ix c calls
    have hb : Bisim (fun (s : (UnregisteredIndex.premap f (.premap g ix)).State)
        (s' : (UnregisteredIndex.premap (fun x => (f x).bind g) ix).State) => (s : ix.State) = s')
        ((UnregisteredIndex.premap f (.premap g ix)).index T)
        ((UnregisteredIndex.premap (fun x => (f x).bind g) ix).index T) :=
      Bisim.of_eq rfl (PremapIndex.onUpdate_fused f g (ix.index T))
    by_cases hc : (Collection.registerIndex (.premap f (.premap g ix)) c).Returns
    · obtain ⟨hx,ha⟩ := Collection.play_registered hb hc calls
      obtain ⟨before,s,s',log,after,hn,hl,hl',hs⟩ := ha.indexes.split
      refine ⟨hx,.inr ⟨ha.store,before,s,s',log,after,hn,hl,hl',?_⟩⟩
      intro R q
      have hs' : (s : ix.State) = s' := hs
      simp only [Query.run,ha.context_eq]
      exact congrArg (q.run _) hs'
    · have he := Collection.play_unregistered hb hc calls
      exact ⟨congrArg Prod.fst he,.inl he⟩

def even (n : ℕ) : Option ℕ := if n % 2 = 0 then some n else none

def changes : List (IndexContext ℕ × Update ℕ) :=
  [(⟨fun _ => some 5⟩,.add (Id.fromLong ⟨1,true⟩) 5),(⟨fun _ => some 6⟩,.update (Id.fromLong ⟨1,true⟩) 5 6)]

theorem update_passed_on_as_add :
    (PremapIndex.passed even changes).map Prod.snd = [.add (Id.fromLong ⟨1,true⟩) 6] ∧
    ∃ R, R 1 = some 6 ∧ ValidLog PartialMap.empty ((PremapIndex.passed even changes).map Prod.snd)
      (PartialMap.filterMap even R) := by
  have hv : ValidLog PartialMap.empty (changes.map Prod.snd)
      ((PartialMap.empty.set (Id.fromLong ⟨1,true⟩).bits 5).set (Id.fromLong ⟨1,true⟩).bits 6) :=
    ⟨rfl,PartialMap.set_self _ _ _,rfl⟩
  exact ⟨rfl,_,PartialMap.set_self _ _ _,
    ((premap_filterMaps_the_log even).1 (HashIndex.index : Index ℕ ℕ _) changes _ _ hv).2⟩

end ComposableIndexes
