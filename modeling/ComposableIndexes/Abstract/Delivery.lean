import ComposableIndexes.Abstract.Folding

namespace ComposableIndexes

namespace RegisteredIndex

variable {T : Type} {V : Set T} {ctx : IndexContext T} {u : Update T} {ix ix' : RegisteredIndex T}

-- Where the index is a fold its state is the fold of its log.
def Replays (ix : RegisteredIndex T) : Prop :=
  ∀ {S : Type} {core : ix.expr.State → S} {init : S} {step : Update T → S → S}, Folds (ix.expr.index T) core init step →
    core ix.state = ix.log.foldl (fun s u => step u s) init

structure Kept (V : Set T) (ix : RegisteredIndex T) : Prop where
  replays : ix.Replays
  stores : ∀ u ∈ ix.log, u.Stores V

theorem kept_new (V : Set T) (e : UnregisteredIndex T) : (new e).Kept V :=
  ⟨fun hf => hf.create,by simp [new]⟩

theorem receive_folds {S : Type} {core : ix.expr.State → S} {init : S} {step : Update T → S → S}
    (hf : Folds (ix.expr.index T) core init step) (hr : receive ctx u ix = .returned () ix') :
    ∃ s, ix' = ⟨ix.expr,s,ix.log ++ [u]⟩ ∧ core s = step u (core ix.state) := by
  obtain ⟨s,hs,hc⟩ := hf.deliver ctx u ix.state
  simp only [receive,hs] at hr
  cases hr
  exact ⟨s,rfl,hc⟩

theorem receive_delivers (hr : receive ctx u ix = .returned () ix') :
    ∃ s, (ix.expr.index T).deliver ctx u ix.state = .returned () s ∧ ix' = ⟨ix.expr,s,ix.log ++ [u]⟩ := by
  unfold receive at hr
  split at hr
  · cases hr
    exact ⟨_,by assumption,rfl⟩
  · cases hr

theorem Kept.received (h : ix.Kept V) (hu : u.Stores V) (hr : receive ctx u ix = .returned () ix') : ix'.Kept V := by
  obtain ⟨s,_,rfl⟩ := receive_delivers hr
  refine ⟨?_,?_⟩
  · intro S core init step hf
    have hf' : Folds (ix.expr.index T) core init step := hf
    obtain ⟨s',he,hc⟩ := receive_folds hf' hr
    cases he
    rw [hc,List.foldl_append,h.replays hf]
    rfl
  · intro w hw
    rcases List.mem_append.mp hw with hw | hw
    · exact h.stores w hw
    · rw [List.mem_singleton.mp hw]
      exact hu

theorem Kept.receivedAll (h : ix.Kept V) {items : List (Id × T)} (hi : ∀ p ∈ items, p.2 ∈ V)
    (hr : receiveAll ctx items ix = .returned () ix') : ix'.Kept V := by
  induction items generalizing ix with
  | nil =>
    cases hr
    exact h
  | cons p rest ih =>
    obtain ⟨id,elem⟩ := p
    obtain ⟨hp,hrest⟩ := List.forall_mem_cons.mp hi
    obtain ⟨_,ix₁,ho,hrest'⟩ := Procedure.returned_of_bind hr
    exact ih (h.received (u := .add id elem) hp ho) hrest hrest'

end RegisteredIndex

namespace Collection

open RegisteredIndex (receive Kept)

variable {T : Type} {V : Set T} {u : Update T}

theorem collectHooks_cons {ctx : IndexContext T} {ix : RegisteredIndex T} {rest : List (RegisteredIndex T)}
    {ps : List (Prepared T)} (h : collectHooks ctx u (ix :: rest) = .ok ps) :
    ∃ hook s qs, (ix.expr.index T).onUpdate ctx u ix.state = .returned hook s ∧ collectHooks ctx u rest = .ok qs ∧
      ps = ⟨ix.expr,s,hook,ix.log⟩ :: qs := by
  simp only [collectHooks] at h
  cases ho : (ix.expr.index T).onUpdate ctx u ix.state with
  | thrown e s =>
    rw [ho] at h
    cases h
  | returned hook s =>
    rw [ho] at h
    cases hrest : collectHooks ctx u rest with
    | error e =>
      rw [hrest] at h
      cases h
    | ok qs =>
      rw [hrest] at h
      cases h
      exact ⟨hook,s,qs,rfl,rfl,rfl⟩

theorem runHooks_cons {p : Prepared T} {ps : List (Prepared T)} {ixs : List (RegisteredIndex T)}
    (h : runHooks u (p :: ps) = .returned () ixs) : ∃ s rest, p.hook p.state = .returned () s ∧
      runHooks u ps = .returned () rest ∧ ixs = ⟨p.expr,s,p.log ++ [u]⟩ :: rest := by
  simp only [runHooks] at h
  cases hh : p.hook p.state with
  | thrown e s =>
    rw [hh] at h
    cases h
  | returned _ s =>
    rw [hh] at h
    cases hrun : runHooks u ps with
    | thrown e rest =>
      rw [hrun] at h
      cases h
    | returned _ rest =>
      rw [hrun] at h
      cases h
      exact ⟨s,rest,rfl,rfl,rfl⟩

theorem runHooks_receives {ctx : IndexContext T} {ixs ixs' : List (RegisteredIndex T)} {ps : List (Prepared T)}
    (hc : collectHooks ctx u ixs = .ok ps) (hr : runHooks u ps = .returned () ixs') :
    List.Forall₂ (fun ix ix' => receive ctx u ix = .returned () ix') ixs ixs' := by
  induction ixs generalizing ps ixs' with
  | nil =>
    cases hc
    cases hr
    exact .nil
  | cons ix rest ih =>
    obtain ⟨hook,s,qs,ho,hrest,rfl⟩ := collectHooks_cons hc
    obtain ⟨s',ixs,hh,hrun,rfl⟩ := runHooks_cons hr
    refine .cons ?_ (ih hrest hrun)
    have hd : (ix.expr.index T).deliver ctx u ix.state = .returned () s' := (Procedure.bind_returned ho).trans hh
    simp only [receive,hd]

variable [JsValue T] {c c' : Collection T}

theorem propagateUpdate_receives (h : propagateUpdate u c = .returned () c') :
    List.Forall₂ (fun ix ix' => receive c.context u ix = .returned () ix') c.indexes c'.indexes := by
  unfold propagateUpdate at h
  cases hc : collectHooks c.context u c.indexes with
  | error e =>
    rw [hc] at h
    cases h
  | ok ps =>
    rw [hc] at h
    cases hr : runHooks u ps with
    | thrown e ixs =>
      simp only [hr] at h
      cases h
    | returned a ixs =>
      simp only [hr] at h
      cases h
      exact runHooks_receives hc hr

omit [JsValue T] in
theorem exists_sender {R : RegisteredIndex T → RegisteredIndex T → Prop} {ixs ixs' : List (RegisteredIndex T)}
    (h : List.Forall₂ R ixs ixs') {ix' : RegisteredIndex T} (hix : ix' ∈ ixs') : ∃ ix ∈ ixs, R ix ix' := by
  induction h with
  | nil => cases hix
  | cons hr _ ih =>
    rcases List.mem_cons.mp hix with rfl | hix
    · exact ⟨_,by simp,hr⟩
    · obtain ⟨ix,hm,hr'⟩ := ih hix
      exact ⟨ix,by simp [hm],hr'⟩

omit [JsValue T] in
theorem receiver_at {R : RegisteredIndex T → RegisteredIndex T → Prop} {ixs ixs' : List (RegisteredIndex T)}
    (h : List.Forall₂ R ixs ixs') {n : ℕ} {ix : RegisteredIndex T} (hix : ixs[n]? = some ix) :
    ∃ ix', ixs'[n]? = some ix' ∧ R ix ix' := by
  induction h generalizing n with
  | nil => simp at hix
  | @cons a b _ _ hab _ ih =>
    cases n with
    | zero =>
      obtain rfl : a = ix := by simpa using hix
      exact ⟨b,rfl,hab⟩
    | succ n => exact ih hix

theorem getElem_registered {e : UnregisteredIndex T} {ix ix' : RegisteredIndex T} (hr : registerIndex e c = .returned ix c')
    {n : ℕ} (hix : c.indexes[n]? = some ix') : c'.indexes[n]? = some ix' ∧ c'.store = c.store := by
  unfold registerIndex at hr
  split at hr
  · cases hr
  · cases hr
    have hlt : n < c.indexes.length := (List.getElem?_eq_some_iff.mp hix).1
    exact ⟨(List.getElem?_append_left hlt).trans hix,rfl⟩

end Collection

namespace Call

variable {T : Type} [JsValue T]

def StoresIn (V : Set T) (c : Collection T) : Call T → Prop
  | .registerIndex _ => True
  | .add value => value ∈ V
  | .set _ newValue => newValue ∈ V
  | .delete _ => True
  | .alter id f => ∀ v, (f (c.get id)).1 = some v → v ∈ V
  | .adjust id f => ∀ v, (adjusted f (c.get id)).1 = some v → v ∈ V

structure ProperIn (V : Set T) (c : Collection T) (call : Call T) : Prop extends call.Proper c where
  stored : call.StoresIn V c

theorem storesIn_univ (c : Collection T) (call : Call T) : call.StoresIn Set.univ c := by
  cases call with
  | alter id f => exact fun _ _ => trivial
  | adjust id f => exact fun _ _ => trivial
  | _ => trivial

instance decidableStoresIn (V : Set T) [DecidablePred (fun v => v ∈ V)] (c : Collection T) :
    (call : Call T) → Decidable (call.StoresIn V c)
  | .add value => inferInstanceAs (Decidable (value ∈ V))
  | .set _ newValue => inferInstanceAs (Decidable (newValue ∈ V))
  | .alter id f => inferInstanceAs (Decidable (∀ v, (f (c.get id)).1 = some v → v ∈ V))
  | .adjust id f => inferInstanceAs (Decidable (∀ v, (adjusted f (c.get id)).1 = some v → v ∈ V))
  | .registerIndex _ | .delete _ => .isTrue trivial

instance (V : Set T) [DecidablePred (fun v => v ∈ V)] (c : Collection T) (call : Call T) :
    Decidable (call.ProperIn V c) :=
  decidable_of_iff (call.Proper c ∧ call.StoresIn V c) ⟨fun h => ⟨h.1,h.2⟩,fun h => ⟨h.toProper,h.stored⟩⟩

end Call

namespace Collection

open RegisteredIndex (Kept)

variable {T : Type} [JsValue T] {V : Set T} {c c' : Collection T} {id : Id} {v : T}

structure Keeping (V : Set T) (c : Collection T) : Prop where
  stored : ∀ a ∈ c.contents.values, a ∈ V
  kept : ∀ ix ∈ c.indexes, ix.Kept V

omit [JsValue T] in
theorem keeping_new (V : Set T) : (new : Collection T).Keeping V := by
  refine ⟨?_,by simp [new]⟩
  intro a ha
  obtain ⟨i,hi⟩ := PartialMap.mem_values.mp ha
  cases hi

theorem Keeping.propagate (h : c.Keeping V) {u : Update T} (hu : u.Stores V) (last : Id) {store : IdMap T}
    (hst : store.find = u.apply c.contents)
    (hr : propagateUpdate u { c with last := last, store := store } = .returned () c') : c'.Keeping V := by
  have hs : c'.store = store := store_of_propagated hr
  refine ⟨?_,?_⟩
  · rw [contents,hs,hst]
    exact FoldArgs.values_apply h.stored hu
  · intro ix hix
    obtain ⟨ix₀,hix₀,hrec⟩ := exists_sender (propagateUpdate_receives hr) hix
    exact (h.kept ix₀ hix₀).received hu hrec

theorem Keeping.add (h : c.Keeping V) (hv : v ∈ V) (hr : add v c = .returned id c') : c'.Keeping V :=
  h.propagate (u := .add c.nextId v) hv _ (find_set_eq c c.nextId v) (propagated_of_add hr)

theorem Keeping.set (h : c.Keeping V) (hv : v ∈ V) (hr : set id v c = .returned () c') : c'.Keeping V := by
  rw [set_apply] at hr
  refine h.propagate ?_ _ ?_ hr
  · unfold setUpdate
    cases c.get id <;> exact hv
  · rw [find_set_eq,setUpdate_apply]

theorem Keeping.delete (h : c.Keeping V) {old : Option T} (hr : delete id c = .returned old c') : c'.Keeping V := by
  rcases delete_cases hr with ⟨_,rfl⟩ | ⟨w,_,hp⟩
  · exact h
  · exact h.propagate (u := .delete id w) trivial c.last (find_delete_eq c id) hp

theorem Keeping.putBack (h : c.Keeping V) {Ret : Type} {r : Option T × Ret} {ret : Ret}
    (hv : ∀ v, r.1 = some v → v ∈ V) (hr : putBack id r c = .returned ret c') : c'.Keeping V := by
  obtain ⟨post,ret'⟩ := r
  cases post with
  | none =>
    cases hr
    exact h
  | some v =>
    unfold Collection.putBack at hr
    cases ht : JsValue.truthy v with
    | false =>
      simp only [ht,Bool.false_eq_true,if_false] at hr
      cases hr
      exact h
    | true =>
      simp only [ht,if_true] at hr
      obtain ⟨_,hs⟩ := Procedure.returned_of_bind_pure hr
      exact h.set (hv v rfl) hs

theorem Keeping.alter (h : c.Keeping V) {Ret : Type} {f : Option T → Option T × Ret} {ret : Ret}
    (hv : ∀ v, (f (c.get id)).1 = some v → v ∈ V) (hr : alter id f c = .returned ret c') : c'.Keeping V := by
  cases ht : JsValue.truthyOption (c.get id) with
  | false =>
    rw [alter_keep f ht] at hr
    exact h.putBack hv hr
  | true =>
    cases hd : Collection.delete id c with
    | thrown e c₁ =>
      rw [alter_thrown f ht hd] at hr
      cases hr
    | returned old c₁ =>
      rw [alter_drop f ht hd] at hr
      exact (h.delete hd).putBack hv hr

theorem Keeping.registerIndex (h : c.Keeping V) {e : UnregisteredIndex T} {ix : RegisteredIndex T}
    (hr : registerIndex e c = .returned ix c') : c'.Keeping V := by
  unfold Collection.registerIndex at hr
  cases ho : RegisteredIndex.receiveAll c.context c.store.entries (.new e) with
  | thrown x ix' =>
    rw [ho] at hr
    cases hr
  | returned a ix' =>
    rw [ho] at hr
    cases hr
    refine ⟨h.stored,?_⟩
    have hitems : ∀ p ∈ c.store.entries, p.2 ∈ V := by
      intro p hp
      exact h.stored p.2 (PartialMap.mem_values.mpr ⟨_,((c.store.mem_entries p.1 p.2).mp hp).2⟩)
    intro ix'' hix
    rcases List.mem_append.mp hix with hix | hix
    · exact h.kept ix'' hix
    · rw [List.mem_singleton.mp hix]
      exact (RegisteredIndex.kept_new V e).receivedAll hitems ho

theorem Keeping.exec (h : c.Keeping V) {call : Call T} (hc : call.StoresIn V c) (hr : call.exec c = .returned () c') :
    c'.Keeping V := by
  cases call with
  | registerIndex e =>
    obtain ⟨ix,ho⟩ := registered_of_exec hr
    exact h.registerIndex ho
  | add v =>
    obtain ⟨_,ha⟩ := Procedure.returned_of_bind_pure hr
    exact h.add hc ha
  | set id v => exact h.set hc hr
  | delete id =>
    obtain ⟨_,hd⟩ := Procedure.returned_of_bind_pure hr
    exact h.delete hd
  | alter id f =>
    obtain ⟨_,ha⟩ := Procedure.returned_of_bind_pure hr
    exact h.alter hc ha
  | adjust id f => exact h.alter hc hr

theorem reached_keeping (h : Reached Call.exec (Call.ProperIn V) new c) : c.Keeping V :=
  h.invariant (keeping_new V) (fun _ _ _ hk hok hr => hk.exec hok.stored hr)

theorem properIn_consistent (h : Reached Call.exec (Call.ProperIn V) new c) : c.Consistent (fun _ => True) := by
  refine proper_consistent (h.mono ?_)
  exact fun _ _ hok => hok.toProper

theorem total_of_folds {S W : Type} {args : FoldArgs T S W} (hl : args.LawfulOn V)
    (h : Reached Call.exec (Call.ProperIn V) new c) {ix : RegisteredIndex T} (hix : ix ∈ c.indexes)
    (core : ix.expr.State → S) (hf : Folds (ix.expr.index T) core args.init args.step) {l : List T}
    (hp : l.Perm (c.toList.map Prod.snd)) : core ix.state = l.foldl args.add args.init := by
  have hlog := ((properIn_consistent h).tracks ix hix).log
  have hk := (reached_keeping h).kept ix hix
  have ht := FoldArgs.totals_log hl hlog hk.stores (by simp [PartialMap.values_empty]) (FoldArgs.totals_empty args)
  rw [hk.replays hf]
  exact ht l (by rw [values_toList,Multiset.coe_eq_coe]; exact hp)

end Collection

end ComposableIndexes
