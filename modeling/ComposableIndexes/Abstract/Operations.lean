import ComposableIndexes.Abstract.Propagation

namespace ComposableIndexes

open RegisteredIndex (Tracks)

namespace Collection

variable {T : Type} [JsValue T] {P : Id → Prop} {c : Collection T}

def nextId (c : Collection T) : Id := Id.fromLong (c.last.asLong.add Long.uone)

structure Consistent (P : Id → Prop) (c : Collection T) : Prop where
  defined : ∀ i v, c.contents i = some v → JsValue.Defined v
  tracks : ∀ ix ∈ c.indexes, ix.Tracks P c.contents

theorem consistent_new (P : Id → Prop) : Consistent P (new : Collection T) :=
  ⟨by simp [contents,new],by simp [new]⟩

theorem get_of_contents {id : Id} {v : T} (hv : c.contents id.bits = some v) (hd : JsValue.Defined v) :
    c.get id = some v := by
  have hf : c.store.find id.bits = some v := hv
  rw [get,IdMap.find_eq_get,hf,Option.bind_some]
  exact JsValue.orUndefined_of_defined hd

omit [JsValue T] in
theorem mem_toList {id : Id} {v : T} : (id,v) ∈ c.toList ↔ id.Unsigned ∧ c.contents id.bits = some v :=
  c.store.mem_entries id v

omit [JsValue T] in
theorem exists_stored_iff {K : Type} {k : T → Option K} (x : K) :
    (∃ i, c.contents.filterMap k i = some x) ↔ ∃ p ∈ c.toList, k p.2 = some x := by
  simp only [PartialMap.filterMap_apply,Option.bind_eq_some_iff]
  constructor
  · rintro ⟨i,v,hv,hk⟩
    exact ⟨(Id.fromLong ⟨i,true⟩,v),mem_toList.mpr ⟨rfl,hv⟩,hk⟩
  · rintro ⟨⟨id,v⟩,hp,hk⟩
    exact ⟨id.bits,v,(mem_toList.mp hp).2,hk⟩

theorem get_eq (hd : ∀ i v, c.contents i = some v → JsValue.Defined v) (id : Id) :
    c.get id = c.contents id.bits := by
  cases hi : c.contents id.bits with
  | none =>
    have hf : c.store.find id.bits = none := hi
    rw [get,IdMap.find_eq_get,hf,Option.bind_none]
  | some v => exact get_of_contents hi (hd id.bits v hi)

omit [JsValue T] in
theorem find_set_eq (c : Collection T) (id : Id) (v : T) : (c.store.set id v).find = c.contents.set id.bits v := by
  funext i
  rw [IdMap.find_set,PartialMap.set_apply,contents]

omit [JsValue T] in
theorem find_delete_eq (c : Collection T) (id : Id) : (c.store.delete id).find = c.contents.erase id.bits := by
  funext i
  rw [IdMap.find_delete,PartialMap.erase_apply,contents]

theorem defined_set {S : Contents T} (hS : ∀ i v, S i = some v → JsValue.Defined v) {i : BitVec 64} {w : T}
    (hw : JsValue.Defined w) : ∀ j v, S.set i w j = some v → JsValue.Defined v := by
  intro j v hv
  rw [PartialMap.set_apply] at hv
  split_ifs at hv
  · cases hv
    exact hw
  · exact hS j v hv

def exprs (c : Collection T) : List (UnregisteredIndex T) := c.indexes.map (fun ix => ix.expr)

-- The store is written before the indexes are asked: `store` already holds what `u` announces.
theorem propagate_tracks (h : ∀ ix ∈ c.indexes, ix.Tracks P c.contents) {u : Update T} (hu : u.ValidAt c.contents)
    (hP : P u.id) (last : Id) {store : IdMap T} (hst : store.find = u.apply c.contents) (hn : ¬c.Clash c.contents u) :
    ∃ c', propagateUpdate u { c with last := last, store := store } = .returned () c' ∧
      (∀ ix ∈ c'.indexes, ix.Tracks P c'.contents) ∧ c'.last = last ∧ c'.store = store ∧ c'.exprs = c.exprs := by
  have ht : ∀ ix ∈ ({ c with last := last, store := store } : Collection T).indexes, ix.Tracks P c.contents := h
  obtain ⟨ixs,hrun,ht',hexpr⟩ := propagateUpdate_returned ht hu hP hn
  refine ⟨⟨last,store,ixs⟩,hrun,?_,rfl,rfl,hexpr⟩
  rw [← hst] at ht'
  exact ht'

theorem propagate_consistent (hc : c.Consistent P) {u : Update T} (hu : u.ValidAt c.contents) (hP : P u.id)
    (last : Id) {store : IdMap T} (hst : store.find = u.apply c.contents)
    (hd : ∀ i v, u.apply c.contents i = some v → JsValue.Defined v) (hn : ¬c.Clash c.contents u) :
    ∃ c', propagateUpdate u { c with last := last, store := store } = .returned () c' ∧ c'.Consistent P ∧
      c'.last = last ∧ c'.store = store ∧ c'.exprs = c.exprs := by
  obtain ⟨c',hrun,ht,hl,hs,hexpr⟩ := propagate_tracks hc.tracks hu hP last hst hn
  refine ⟨c',hrun,⟨?_,ht⟩,hl,hs,hexpr⟩
  rw [contents,hs,hst]
  exact hd

theorem propagate_thrown (h : ∀ ix ∈ c.indexes, ix.Tracks P c.contents) {u : Update T} (hu : u.ValidAt c.contents) (hP : P u.id)
    (last : Id) (store : IdMap T) (hn : c.Clash c.contents u) :
    ∃ c', propagateUpdate u { c with last := last, store := store } = .thrown (conflictException c'.context u.id) c' ∧
      c'.last = last ∧ c'.store = store := by
  have ht : ∀ ix ∈ ({ c with last := last, store := store } : Collection T).indexes, ix.Tracks P c.contents := h
  obtain ⟨ixs,hrun⟩ := propagateUpdate_thrown ht hu hP hn
  exact ⟨⟨last,store,ixs⟩,hrun,rfl,rfl⟩

theorem propagateUpdate_store (u : Update T) (c : Collection T) : (propagateUpdate u c).state.store = c.store := by
  obtain ⟨ixs,he⟩ := propagateUpdate_frame u c
  rw [he]

theorem store_of_propagated {u : Update T} {c c' : Collection T} (h : propagateUpdate u c = .returned () c') :
    c'.store = c.store := by
  have hs := propagateUpdate_store u c
  rwa [h] at hs

omit [JsValue T] in
theorem collectHooks_exprs (ctx : IndexContext T) (u : Update T) (ixs : List (RegisteredIndex T)) :
    (∃ e ixs', collectHooks ctx u ixs = .error (e,ixs') ∧ ixs'.map (fun ix => ix.expr) = ixs.map (fun ix => ix.expr)) ∨
    ∃ ps, collectHooks ctx u ixs = .ok ps ∧ ps.map (fun p => p.expr) = ixs.map (fun ix => ix.expr) := by
  induction ixs with
  | nil => exact .inr ⟨[],rfl,rfl⟩
  | cons ix rest ih =>
    simp only [collectHooks]
    cases (ix.expr.index T).onUpdate ctx u ix.state with
    | thrown e s => exact .inl ⟨e,_,rfl,rfl⟩
    | returned hook s =>
      rcases ih with ⟨e,ixs',he,hexpr⟩ | ⟨ps,hps,hexpr⟩
      · rw [he]
        exact .inl ⟨e,_,rfl,by simp [hexpr]⟩
      · rw [hps]
        exact .inr ⟨_,rfl,by simp [hexpr]⟩

omit [JsValue T] in
theorem runHooks_exprs (u : Update T) (ps : List (Prepared T)) :
    (runHooks u ps).state.map (fun ix => ix.expr) = ps.map (fun p => p.expr) := by
  induction ps with
  | nil => rfl
  | cons p ps ih =>
    simp only [runHooks]
    cases p.hook p.state with
    | thrown e s => simp [Outcome.state,Prepared.abandon,Function.comp_def]
    | returned _ s =>
      cases hr : runHooks u ps <;> rw [hr] at ih <;> simpa [Outcome.state,Outcome.mapState] using ih

theorem propagateUpdate_exprs (u : Update T) (c : Collection T) : (propagateUpdate u c).state.exprs = c.exprs := by
  rcases collectHooks_exprs c.context u c.indexes with ⟨e,ixs,he,hexpr⟩ | ⟨ps,hps,hexpr⟩
  · have hp : propagateUpdate u c = .thrown e { c with indexes := ixs } := by simp only [propagateUpdate,he]
    rw [hp]
    exact hexpr
  · have hp : propagateUpdate u c = (runHooks u ps).mapState (fun ixs => { c with indexes := ixs }) := by
      simp only [propagateUpdate,hps]
    have hr := (runHooks_exprs u ps).trans hexpr
    rw [hp]
    generalize runHooks u ps = o at hr
    cases o <;> exact hr

section Add

variable {v : T}

theorem add_apply (v : T) (c : Collection T) : add v c = (propagateUpdate (.add c.nextId v) >>= fun _ => pure c.nextId)
    { c with last := c.nextId, store := c.store.set c.nextId v } := rfl

theorem propagated_of_add {c' : Collection T} {id' : Id} (hr : add v c = .returned id' c') : propagateUpdate (.add c.nextId v)
    { c with last := c.nextId, store := c.store.set c.nextId v } = .returned () c' := by
  rw [add_apply] at hr
  obtain ⟨_,hp⟩ := Procedure.returned_of_bind_pure hr
  exact hp

theorem add_store (v : T) (c : Collection T) : (add v c).state.store = c.store.set c.nextId v := by
  rw [add_apply,Procedure.bind_pure_state,propagateUpdate_store]

theorem add_exprs (v : T) (c : Collection T) : (add v c).state.exprs = c.exprs := by
  rw [add_apply,Procedure.bind_pure_state,propagateUpdate_exprs]
  rfl

theorem add_returned (hc : c.Consistent P) (hv : JsValue.Defined v) (hP : P c.nextId)
    (hf : c.contents c.nextId.bits = none) (hn : ¬c.Clash c.contents (.add c.nextId v)) :
    ∃ c', add v c = .returned c.nextId c' ∧ c'.Consistent P := by
  obtain ⟨c',hrun,hc',_⟩ := propagate_consistent hc (u := .add c.nextId v) hf hP c.nextId
    (find_set_eq c c.nextId v) (defined_set hc.defined hv) hn
  exact ⟨c',by rw [add_apply,Procedure.bind_returned hrun,Procedure.pure_apply],hc'⟩

theorem add_thrown (hc : c.Consistent P) (hP : P c.nextId) (hf : c.contents c.nextId.bits = none)
    (hn : c.Clash c.contents (.add c.nextId v)) :
    ∃ c', add v c = .thrown (conflictException c'.context c.nextId) c' ∧
      c'.store = c.store.set c.nextId v := by
  obtain ⟨c',hrun,_,hst⟩ := propagate_thrown hc.tracks (u := .add c.nextId v) hf hP c.nextId (c.store.set c.nextId v) hn
  exact ⟨c',by rw [add_apply,Procedure.bind_thrown hrun]; rfl,hst⟩

end Add

section Delete

variable {id : Id} {v : T}

theorem delete_absent (h : c.get id = none) : delete id c = .returned none c := by
  have h' : c.store.get id = none := h
  simp [delete,Procedure.bind_apply,h']

theorem delete_apply (h : c.get id = some v) :
    delete id c = (propagateUpdate (.delete id v) >>= fun _ => pure (some v))
      { c with store := c.store.delete id } := by
  have h' : c.store.get id = some v := h
  simp [delete,Procedure.bind_apply,h']

theorem delete_cases {c' : Collection T} {old : Option T} (hr : delete id c = .returned old c') :
    (c.get id = none ∧ c' = c) ∨ ∃ w, c.get id = some w ∧
      propagateUpdate (.delete id w) { c with store := c.store.delete id } = .returned () c' := by
  cases hg : c.get id with
  | none =>
    rw [delete_absent hg] at hr
    cases hr
    exact .inl ⟨rfl,rfl⟩
  | some w =>
    rw [delete_apply hg] at hr
    obtain ⟨_,hp⟩ := Procedure.returned_of_bind_pure hr
    exact .inr ⟨w,rfl,hp⟩

theorem delete_store (h : c.get id = some v) : (delete id c).state.store = c.store.delete id := by
  rw [delete_apply h,Procedure.bind_pure_state,propagateUpdate_store]

theorem delete_exprs (id : Id) (c : Collection T) : (delete id c).state.exprs = c.exprs := by
  cases hv : c.get id with
  | none =>
    rw [delete_absent hv]
    rfl
  | some v =>
    rw [delete_apply hv,Procedure.bind_pure_state,propagateUpdate_exprs]
    rfl

theorem delete_contents (hd : ∀ i v, c.contents i = some v → JsValue.Defined v) (id : Id) :
    (delete id c).state.contents = c.contents.erase id.bits := by
  have hget := get_eq hd id
  cases hv : c.get id with
  | none =>
    rw [hget] at hv
    rw [delete_absent (hget.trans hv),PartialMap.erase_eq_self hv]
    rfl
  | some v =>
    rw [contents,delete_store hv,find_delete_eq]

omit [JsValue T] in
theorem delete_no_clash (e : UnregisteredIndex T) (S : Contents T) (id : Id) (v : T) :
    ¬e.Clashes S (.delete id v) := by
  have hr := e.refines T (fun _ => True)
  rintro (hc | hc)
  · exact hr.rejects_delete S id v hc
  · exact hr.not_defers_delete S id v hc

theorem delete_returned (hc : c.Consistent P) (hP : P id) :
    ∃ c', delete id c = .returned (c.get id) c' ∧ c'.Consistent P ∧ c'.contents = c.contents.erase id.bits ∧
      c'.exprs = c.exprs := by
  have hget := get_eq hc.defined id
  cases hv : c.get id with
  | none =>
    rw [hget] at hv
    exact ⟨c,delete_absent (hget.trans hv),hc,(PartialMap.erase_eq_self hv).symm,rfl⟩
  | some v =>
    have hn : ¬c.Clash c.contents (.delete id v) := fun ⟨ix,_,hix⟩ => delete_no_clash _ _ _ _ hix
    have hdef : ∀ i w, c.contents.erase id.bits i = some w → JsValue.Defined w :=
      fun i w hw => hc.defined i w (PartialMap.sub_erase _ _ i w hw)
    have hu : (Update.delete id v).ValidAt c.contents := hget.symm.trans hv
    obtain ⟨c',hrun,hc',_,hst,hexpr⟩ := propagate_consistent hc hu hP c.last (find_delete_eq c id) hdef hn
    refine ⟨c',?_,hc',?_,hexpr⟩
    · rw [delete_apply hv]
      exact Procedure.bind_returned hrun
    · rw [contents,hst,find_delete_eq]

end Delete

section Set

variable {id : Id} {v : T}

def setUpdate (c : Collection T) (id : Id) (v : T) : Update T :=
  match c.get id with
  | none => .add id v
  | some oldValue => .update id oldValue v

theorem setUpdate_id (c : Collection T) (id : Id) (v : T) : (c.setUpdate id v).id = id := by
  unfold setUpdate
  cases c.get id <;> rfl

theorem setUpdate_apply (c : Collection T) (id : Id) (v : T) (S : Contents T) :
    (c.setUpdate id v).apply S = S.set id.bits v := by
  unfold setUpdate
  cases c.get id <;> rfl

theorem setUpdate_valid (hc : c.Consistent P) (id : Id) (v : T) : (c.setUpdate id v).ValidAt c.contents := by
  have hget := get_eq hc.defined id
  unfold setUpdate
  cases hv : c.get id with
  | none => exact hget.symm.trans hv
  | some w => exact hget.symm.trans hv

def raisedLast (c : Collection T) (id : Id) : Id := if id.asLong.gt c.last.asLong then id else c.last

theorem set_apply (id : Id) (v : T) (c : Collection T) : set id v c = propagateUpdate (c.setUpdate id v)
    { c with last := c.raisedLast id, store := c.store.set id v } := by
  simp only [set,Procedure.bind_apply,Procedure.write_apply,Procedure.read_apply,raisedLast]
  split_ifs <;> rfl

theorem set_store (id : Id) (v : T) (c : Collection T) : (set id v c).state.store = c.store.set id v := by
  rw [set_apply,propagateUpdate_store]

theorem get_set_state (hv : JsValue.Defined v) (id a : Id) (c : Collection T) :
    (set id v c).state.get a = if a.bits = id.bits then some v else c.get a := by
  rw [get,set_store,IdMap.find_eq_get,IdMap.find_set]
  split_ifs
  · exact JsValue.orUndefined_of_defined hv
  · rw [get,IdMap.find_eq_get]

theorem set_exprs (id : Id) (v : T) (c : Collection T) : (set id v c).state.exprs = c.exprs := by
  rw [set_apply,propagateUpdate_exprs]
  rfl

theorem set_returned (hc : c.Consistent P) (hv : JsValue.Defined v) (hP : P id)
    (hn : ¬c.Clash c.contents (c.setUpdate id v)) : ∃ c', set id v c = .returned () c' ∧ c'.Consistent P := by
  have hid : P (c.setUpdate id v).id := by rwa [setUpdate_id]
  have hdef : ∀ i w, (c.setUpdate id v).apply c.contents i = some w → JsValue.Defined w := by
    rw [setUpdate_apply]
    exact defined_set hc.defined hv
  have hst : (c.store.set id v).find = (c.setUpdate id v).apply c.contents := by
    rw [setUpdate_apply,find_set_eq]
  obtain ⟨c',hrun,hc',_⟩ := propagate_consistent hc (setUpdate_valid hc id v) hid (c.raisedLast id) hst hdef hn
  exact ⟨c',by rw [set_apply,hrun],hc'⟩

theorem set_thrown (hc : c.Consistent P) (hP : P id) (hn : c.Clash c.contents (c.setUpdate id v)) :
    ∃ c', set id v c = .thrown (conflictException c'.context id) c' ∧ c'.store = c.store.set id v := by
  have hid : P (c.setUpdate id v).id := by rwa [setUpdate_id]
  obtain ⟨c',hrun,_,hst⟩ := propagate_thrown hc.tracks (setUpdate_valid hc id v) hid (c.raisedLast id) (c.store.set id v) hn
  rw [setUpdate_id] at hrun
  exact ⟨c',by rw [set_apply,hrun],hst⟩

end Set

end Collection

end ComposableIndexes
