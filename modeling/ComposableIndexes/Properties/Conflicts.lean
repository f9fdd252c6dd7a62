import ComposableIndexes.Abstract.Mentions
import ComposableIndexes.Properties.Failures

namespace ComposableIndexes

namespace Collection

variable {T K : Type} [JsValue T] [DecidableEq K] {c : Collection T} {k : T → Option K} {id : Id} {v : T}

def ThrowsConflict (c : Collection T) (call : Call T) : Prop :=
  ∃ existingId existingValue c', call.exec c = .thrown (.conflict existingId existingValue) c'

def HeldElsewhere (c : Collection T) (k : T → Option K) (id : Id) (v : T) : Prop :=
  ∃ x, k v = some x ∧ ∃ p ∈ c.toList, p.1.bits ≠ id.bits ∧ k p.2 = some x

def Held (c : Collection T) (k : T → Option K) (v : T) : Prop := ∃ x, k v = some x ∧ ∃ p ∈ c.toList, k p.2 = some x

def HoldsOwnKey (c : Collection T) (k : T → Option K) (id : Id) (v : T) : Prop :=
  ∃ x old, k v = some x ∧ c.get id = some old ∧ k old = some x

theorem set_throws_iff {P : Id → Prop} (hc : c.Consistent P) (hv : JsValue.Defined v) (hP : P id) :
    c.ThrowsConflict (.set id v) ↔ c.Clash c.contents (c.setUpdate id v) := by
  by_cases hn : c.Clash c.contents (c.setUpdate id v)
  · obtain ⟨c',hr,_⟩ := set_thrown hc hP hn
    exact iff_of_true ⟨_,_,c',hr⟩ hn
  · obtain ⟨c',hr,_⟩ := set_returned hc hv hP hn
    refine iff_of_false ?_ hn
    rintro ⟨_,_,c₁,ht⟩
    have ht' : set id v c = .thrown _ c₁ := ht
    rw [hr] at ht'
    cases ht'

theorem add_throws_iff {P : Id → Prop} (hc : c.Consistent P) (hv : JsValue.Defined v) (hP : P c.nextId)
    (hf : c.contents c.nextId.bits = none) : c.ThrowsConflict (.add v) ↔ c.Clash c.contents (.add c.nextId v) := by
  by_cases hn : c.Clash c.contents (.add c.nextId v)
  · obtain ⟨c',hr,_⟩ := add_thrown hc hP hf hn
    exact iff_of_true ⟨_,_,c',Procedure.bind_thrown hr⟩ hn
  · obtain ⟨c',hr,_⟩ := add_returned hc hv hP hf hn
    refine iff_of_false ?_ hn
    rintro ⟨_,_,c₁,ht⟩
    have ht' : (Call.add v).exec c = .returned () c' := Procedure.bind_returned hr
    rw [ht'] at ht
    cases ht

omit [JsValue T] in
theorem unique_clashes_iff {S : Contents T} {u : Update T} (hu : (∃ id, u = .add id v) ∨ ∃ id old, u = .update id old v) :
    (UnregisteredIndex.premap k .uniqueHashIndex).Clashes S u ↔ ∃ x, k v = some x ∧ ∃ i, S.filterMap k i = some x := by
  have hd : ¬(UnregisteredIndex.premap k .uniqueHashIndex).Defers S u := by
    rintro ⟨w,_,hd⟩
    exact hd
  rw [UnregisteredIndex.Clashes,or_iff_left hd]
  constructor
  · rintro ⟨w,hw,hr⟩
    rcases hu with ⟨id,rfl⟩ | ⟨id,old,rfl⟩ <;> simp only [filterMapUpdate] at hw <;> split at hw <;> cases hw
    · exact ⟨_,‹_›,hr⟩
    · exact ⟨_,‹_›,hr⟩
    · exact hr.elim
    · exact ⟨_,‹_›,hr⟩
  · rintro ⟨x,hx,hi⟩
    rcases hu with ⟨id,rfl⟩ | ⟨id,old,rfl⟩
    · exact ⟨.add id x,by simp [filterMapUpdate,hx],hi⟩
    · cases ho : k old with
      | none => exact ⟨.add id x,by simp [filterMapUpdate,hx,ho],hi⟩
      | some y => exact ⟨.update id y x,by simp [filterMapUpdate,hx,ho],hi⟩

omit [JsValue T] in
theorem unique_clashes_held {u : Update T} (hu : (∃ id, u = .add id v) ∨ ∃ id old, u = .update id old v) :
    (UnregisteredIndex.premap k .uniqueHashIndex).Clashes c.contents u ↔ c.Held k v := by
  simp only [unique_clashes_iff hu,Held,exists_stored_iff]

theorem setUpdate_cases (c : Collection T) (id : Id) (v : T) :
    (∃ id', c.setUpdate id v = .add id' v) ∨ ∃ id' old, c.setUpdate id v = .update id' old v := by
  unfold setUpdate
  cases c.get id with
  | none => exact .inl ⟨id,rfl⟩
  | some old => exact .inr ⟨id,old,rfl⟩

omit [DecidableEq K] in
theorem held_iff (hd : ∀ i v, c.contents i = some v → JsValue.Defined v) (id : Id) (v : T) :
    c.Held k v ↔ c.HeldElsewhere k id v ∨ c.HoldsOwnKey k id v := by
  constructor
  · rintro ⟨x,hx,⟨id',w⟩,hp,hk⟩
    by_cases hb : id'.bits = id.bits
    · refine .inr ⟨x,w,hx,?_,hk⟩
      rw [get_eq hd,← hb]
      exact (mem_toList.mp hp).2
    · exact .inl ⟨x,hx,_,hp,hb,hk⟩
  · rintro (⟨x,hx,p,hp,_,hk⟩ | ⟨x,old,hx,hg,hk⟩)
    · exact ⟨x,hx,p,hp,hk⟩
    · rw [get_eq hd] at hg
      exact ⟨x,hx,(Id.fromLong ⟨id.bits,true⟩,old),mem_toList.mpr ⟨rfl,hg⟩,hk⟩

theorem not_heldElsewhere {P : Id → Prop} {s : UniqueHashIndex.State K}
    (hd : ∀ i v, c.contents i = some v → JsValue.Defined v) (hs : UniqueHashIndex.Holds P (c.contents.filterMap k) s)
    (id : Id) (v : T) (h : c.HoldsOwnKey k id v) : ¬c.HeldElsewhere k id v := by
  obtain ⟨x,old,hx,hg,hk⟩ := h
  rintro ⟨y,hy,p,hp,hne,hkp⟩
  rw [hx] at hy
  cases hy
  rw [get_eq hd] at hg
  refine hne (UniqueHashIndex.holder_unique hs (k := x) ?_ ?_)
  · simp [(mem_toList.mp hp).2,hkp]
  · simp [hg,hk]

omit [JsValue T] in
theorem clash_split {before after : List (RegisteredIndex T)} {ix : RegisteredIndex T}
    (h : c.indexes = before ++ ix :: after) (S : Contents T) (u : Update T) :
    c.Clash S u ↔ ix.expr.Clashes S u ∨ ∃ ix' ∈ before ++ after, ix'.expr.Clashes S u := by
  rw [Clash,h]
  simp only [List.mem_append,List.mem_cons]
  constructor
  · rintro ⟨ix',hm | rfl | hm,hcl⟩
    · exact .inr ⟨ix',.inl hm,hcl⟩
    · exact .inl hcl
    · exact .inr ⟨ix',.inr hm,hcl⟩
  · rintro (hcl | ⟨ix',hm | hm,hcl⟩)
    · exact ⟨ix,.inr (.inl rfl),hcl⟩
    · exact ⟨ix',.inl hm,hcl⟩
    · exact ⟨ix',.inr (.inr hm),hcl⟩

theorem unique_rejects_real_conflicts_iff (h : Reached Call.exec Call.Proper new c) {s : UniqueHashIndex.State K}
    {log : List (Update T)} {before after : List (RegisteredIndex T)}
    (hixs : c.indexes = before ++ ⟨.premap k .uniqueHashIndex,s,log⟩ :: after) :
    (∀ id v, (Call.set id v).Proper c → ((c.ThrowsConflict (.set id v) ↔ c.HeldElsewhere k id v) ↔
      ¬c.HoldsOwnKey k id v ∧
      ((∃ ix ∈ before ++ after, ix.expr.Clashes c.contents (c.setUpdate id v)) → c.HeldElsewhere k id v))) ∧
    ∀ v, (Call.add v).Proper c → ((c.ThrowsConflict (.add v) ↔ c.Held k v) ↔
      ((∃ ix ∈ before ++ after, ix.expr.Clashes c.contents (.add c.nextId v)) → c.Held k v)) := by
  have hc := proper_consistent h
  have hix : (⟨.premap k .uniqueHashIndex,s,log⟩ : RegisteredIndex T) ∈ c.indexes := by simp [hixs]
  have hs : UniqueHashIndex.Holds (fun _ => True) (c.contents.filterMap k) s := (hc.tracks _ hix).holds
  refine ⟨?_,?_⟩
  · intro id v hv
    rw [set_throws_iff hc hv.defined trivial,clash_split hixs,unique_clashes_held (c.setUpdate_cases id v),
      held_iff hc.defined id v]
    have hno := not_heldElsewhere hc.defined hs id v
    constructor
    · intro hiff
      exact ⟨fun hown => hno hown (hiff.mp (.inl (.inr hown))),fun hother => hiff.mp (.inr hother)⟩
    · rintro ⟨hown,hother⟩
      exact ⟨fun ht => ht.elim (fun hh => hh.resolve_right hown) hother,fun hh => .inl (.inl hh)⟩
  · intro v hv
    rw [add_throws_iff hc hv.defined trivial hv.fresh,clash_split hixs,unique_clashes_held (.inl ⟨_,rfl⟩)]
    exact ⟨fun hiff hother => hiff.mp (.inr hother),fun hother => ⟨fun ht => ht.elim id hother,.inl⟩⟩

theorem taken_indexes : ∃ s log, taken.indexes = [] ++ ⟨.premap some .uniqueHashIndex,s,log⟩ :: [] := ⟨_,_,rfl⟩

theorem set_to_free_key_returns : ¬taken.ThrowsConflict (.set (Id.fromLong ⟨1,true⟩) 6) := by
  obtain ⟨s,log,hixs⟩ := taken_indexes
  have hget : taken.get (Id.fromLong ⟨1,true⟩) = some 5 := rfl
  have hfree : ∀ p ∈ taken.toList, p.2 ≠ 6 := by decide
  have hiff := ((unique_rejects_real_conflicts_iff taken_reached hixs).1 (Id.fromLong ⟨1,true⟩) 6 (by decide)).mpr ⟨?_,?_⟩
  · rw [hiff]
    rintro ⟨x,hx,p,hp,_,hk⟩
    exact hfree p hp (Option.some.inj (hk.trans hx.symm))
  · rintro ⟨x,old,hx,hg,hk⟩
    rw [hget] at hg
    cases hg
    cases hk.trans hx.symm
  · rintro ⟨ix,hix,_⟩
    cases hix

theorem set_to_own_key_throws : Reached Call.exec Call.Proper new taken ∧ (∃ s log,
    (⟨.premap some .uniqueHashIndex,s,log⟩ : RegisteredIndex ℕ) ∈ taken.indexes) ∧
    taken.ThrowsConflict (.set (Id.fromLong ⟨1,true⟩) 5) ∧ ¬taken.HeldElsewhere some (Id.fromLong ⟨1,true⟩) 5 := by
  refine ⟨taken_reached,⟨_,_,List.mem_singleton.mpr rfl⟩,⟨_,_,_,rfl⟩,?_⟩
  have hone : ∀ p ∈ taken.toList, p.1.bits = 1 := by decide
  rintro ⟨x,_,p,hp,hne,_⟩
  exact hne (hone p hp)

section Named

open RegisteredIndex (Tracks Separate load receive receiveAll)

-- `existingId` and `existingValue` are those of the item that holds the key `x` in the index.
def NamesHolder (c : Collection T) (k : T → Option K) (s : UniqueHashIndex.State K) (x : K) (existingId : Id)
    (existingValue : Option T) : Prop :=
  (∃ holder, s.get x = some holder ∧ holder.bits = existingId.bits) ∧ existingValue = c.get existingId ∧
    ∃ w, existingValue = some w ∧ k w = some x

def NamesOtherHolder (c : Collection T) (k : T → Option K) (s : UniqueHashIndex.State K) (x : K) (id existingId : Id)
    (existingValue : Option T) : Prop := c.NamesHolder k s x existingId existingValue ∧ existingId ≠ id

-- `registerIndex` stops at the item `(id,v)`, which the index turns away in the state `s`.
def StopsAt (c : Collection T) (e : UnregisteredIndex T) (s : e.State) (id : Id) (v : T) : Prop :=
  ∃ before after log ix, c.toList = before ++ (id,v) :: after ∧
    receiveAll c.context before (.new e) = .returned () ⟨e,s,log⟩ ∧
    ∃ x, receive c.context (.add id v) ⟨e,s,log⟩ = .thrown x ix

omit [JsValue T] in
theorem holder_stored {P : Id → Prop} {S : Contents T} {s : UniqueHashIndex.State K} {x : K} {holder : Id}
    (hs : UniqueHashIndex.Holds P (S.filterMap k) s) (hg : s.get x = some holder) :
    ∃ w, S holder.bits = some w ∧ k w = some x := by
  have hS := hs.stored hg
  rwa [PartialMap.filterMap_apply,Option.bind_eq_some_iff] at hS

theorem not_namesHolder {P : Id → Prop} {S : Contents T} {s : UniqueHashIndex.State K} {x : K} {existingId : Id}
    {existingValue : Option T} (hs : UniqueHashIndex.Holds P (S.filterMap k) s) (hf : S existingId.bits = none)
    (c' : Collection T) : ¬c'.NamesHolder k s x existingId existingValue := by
  rintro ⟨⟨holder,hg,hb⟩,_⟩
  obtain ⟨w,hw,_⟩ := holder_stored hs hg
  rw [hb,hf] at hw
  cases hw

theorem namesHolder_iff {P : Id → Prop} {s : UniqueHashIndex.State K} {x : K} {c' : Collection T}
    (hc : c.Consistent P) (hs : UniqueHashIndex.Holds P (c.contents.filterMap k) s) (hx : k v = some x)
    (hg : c'.get id = some v) : c'.NamesHolder k s x id (c'.get id) ↔ c.HoldsOwnKey k id v := by
  constructor
  · rintro ⟨⟨holder,hh,hb⟩,_⟩
    obtain ⟨old,ho,hk⟩ := holder_stored hs hh
    exact ⟨x,old,hx,by rw [get_eq hc.defined,← hb,ho],hk⟩
  · rintro ⟨y,old,hy,ho,hk⟩
    rw [hx] at hy
    cases hy
    rw [get_eq hc.defined] at ho
    exact ⟨(hs.holder x id.bits).mpr (by simp [ho,hk]),rfl,v,hg,hx⟩

theorem registerIndex_stopsAt {e : UnregisteredIndex T} {existingId : Id} {existingValue : Option T}
    {c' : Collection T} (h : (Call.registerIndex e).exec c = .thrown (.conflict existingId existingValue) c') :
    ∃ s v S, c.StopsAt e s existingId v ∧ e.Holds (fun _ => True) S s ∧ S existingId.bits = none := by
  simp only [Call.exec,registerIndex] at h
  cases hr : receiveAll c.context c.store.entries (.new e) with
  | returned a ix =>
    rw [hr] at h
    cases h
  | thrown x ix =>
    rw [hr] at h
    cases h
    obtain ⟨before,id,v,after,ix₁,hsplit,hbefore,hthrow⟩ := RegisteredIndex.receiveAll_thrown c.context hr
    have hsep := c.separate_toList
    rw [toList,hsplit] at hsep
    have hsep' : Separate PartialMap.empty before := ⟨hsep.1.sublist (by simp),by simp⟩
    have hfree : load PartialMap.empty before id.bits = none := by
      cases hv : load PartialMap.empty before id.bits with
      | none => rfl
      | some w =>
        obtain ⟨id',hb,hm⟩ := ((RegisteredIndex.load_eq_some hsep' _ _).mp hv).resolve_left (by simp)
        have hn := hsep.1
        rw [List.map_append,List.nodup_append'] at hn
        refine absurd ?_ (hn.2.2 (List.mem_map_of_mem hm))
        simp [hb]
    rcases RegisteredIndex.receiveAll_cases c.context (RegisteredIndex.tracks_new (fun _ => True) e) hsep'
      (fun _ _ => trivial) with ⟨s,log,hret,ht⟩ | ⟨R,id',v',ix₂,_,hx⟩
    · have hnew : receiveAll c.context before (.new e) = .returned () ⟨e,s,log⟩ := hret
      rw [hnew] at hbefore
      cases hbefore
      have hid := RegisteredIndex.receive_conflict c.context ht (u := .add id v) hfree trivial hthrow
      cases hid
      exact ⟨s,v,_,⟨before,after,log,ix,hsplit,hnew,_,hthrow⟩,ht.holds,hfree⟩
    · have hnew : receiveAll c.context before (.new e) = .thrown (conflictException c.context id') ix₂ := hx
      rw [hnew] at hbefore
      cases hbefore

theorem add_existingId {existingId : Id} {existingValue : Option T} {c' : Collection T}
    (h : (Call.add v).exec c = .thrown (.conflict existingId existingValue) c') : existingId = c.nextId := by
  have ha : add v c = .thrown (.conflict existingId existingValue) c' := Procedure.thrown_of_bind_pure h
  rw [add_apply] at ha
  exact (propagateUpdate_blames (Procedure.thrown_of_bind_pure ha)).existingId

theorem set_existingId {existingId : Id} {existingValue : Option T} {c' : Collection T}
    (h : (Call.set id v).exec c = .thrown (.conflict existingId existingValue) c') : existingId = id := by
  rw [show (Call.set id v).exec c = _ from set_apply id v c] at h
  have hid := (propagateUpdate_blames h).existingId
  rwa [setUpdate_id] at hid

theorem add_not_namesHolder {P : Id → Prop} {s : UniqueHashIndex.State K}
    (hs : UniqueHashIndex.Holds P (c.contents.filterMap k) s) (hf : c.contents c.nextId.bits = none) {existingId : Id}
    {existingValue : Option T} {c' : Collection T}
    (ht : (Call.add v).exec c = .thrown (.conflict existingId existingValue) c') (x : K) :
    ¬c'.NamesHolder k s x existingId existingValue := by
  rw [← add_existingId ht] at hf
  exact not_namesHolder hs hf c'

theorem set_namesHolder_iff {P : Id → Prop} {s : UniqueHashIndex.State K} (hc : c.Consistent P)
    (hs : UniqueHashIndex.Holds P (c.contents.filterMap k) s) (hv : JsValue.Defined v) (hP : P id) {existingId : Id}
    {existingValue : Option T} {c' : Collection T}
    (ht : (Call.set id v).exec c = .thrown (.conflict existingId existingValue) c') {x : K} (hx : k v = some x) :
    c'.NamesHolder k s x existingId existingValue ↔ c.HoldsOwnKey k id v := by
  have hn := (set_throws_iff hc hv hP).mp ⟨_,_,c',ht⟩
  obtain ⟨c₁,hr,hst⟩ := set_thrown hc hP hn
  rw [show (Call.set id v).exec c = _ from hr] at ht
  cases ht
  exact namesHolder_iff hc hs hx (get_written c hv hst)

theorem conflict_never_names_other_holder (k : T → Option K) :
    (∀ c : Collection T,
      (∀ v existingId existingValue c', (Call.add v).exec c = .thrown (.conflict existingId existingValue) c' →
        existingId = c.nextId ∧ ∀ s x, ¬c'.NamesOtherHolder k s x c.nextId existingId existingValue) ∧
      (∀ id v existingId existingValue c', (Call.set id v).exec c = .thrown (.conflict existingId existingValue) c' →
        existingId = id ∧ ∀ s x, ¬c'.NamesOtherHolder k s x id existingId existingValue) ∧
      ∀ existingId existingValue c', (Call.registerIndex (.premap k .uniqueHashIndex)).exec c =
        .thrown (.conflict existingId existingValue) c' →
        ∃ s v, c.StopsAt (.premap k .uniqueHashIndex) s existingId v ∧
          ∀ x, ¬c'.NamesHolder k s x existingId existingValue) ∧
    ∀ c : Collection T, Reached Call.exec Call.Proper new c → ∀ (s : UniqueHashIndex.State K) (log : List (Update T)),
      (⟨.premap k .uniqueHashIndex,s,log⟩ : RegisteredIndex T) ∈ c.indexes →
      (∀ v, (Call.add v).Proper c → ∀ existingId existingValue c',
        (Call.add v).exec c = .thrown (.conflict existingId existingValue) c' →
        ∀ x, ¬c'.NamesHolder k s x existingId existingValue) ∧
      ∀ id v, (Call.set id v).Proper c → ∀ existingId existingValue c',
        (Call.set id v).exec c = .thrown (.conflict existingId existingValue) c' → ∀ x, k v = some x →
        (c'.NamesHolder k s x existingId existingValue ↔ c.HoldsOwnKey k id v) := by
  refine ⟨fun c => ⟨?_,?_,?_⟩,fun c h s log hix => ?_⟩
  · intro v existingId existingValue c' ht
    exact ⟨add_existingId ht,fun s x hn => hn.2 (add_existingId ht)⟩
  · intro id v existingId existingValue c' ht
    exact ⟨set_existingId ht,fun s x hn => hn.2 (set_existingId ht)⟩
  · intro existingId existingValue c' ht
    obtain ⟨s,v,S,hstop,hs,hf⟩ := registerIndex_stopsAt ht
    exact ⟨s,v,hstop,fun x => not_namesHolder hs hf c'⟩
  · have hc := proper_consistent h
    have hs : UniqueHashIndex.Holds (fun _ => True) (c.contents.filterMap k) s := (hc.tracks _ hix).holds
    refine ⟨?_,?_⟩
    · intro v hv existingId existingValue c' ht
      exact add_not_namesHolder hs hv.fresh ht
    · intro id v hv existingId existingValue c' ht x hx
      exact set_namesHolder_iff hc hs hv.defined trivial ht hx

theorem taken_index : ∃ s log, (⟨.premap some .uniqueHashIndex,s,log⟩ : RegisteredIndex ℕ) ∈ taken.indexes ∧
    s.get 5 = some (Id.fromLong ⟨1,true⟩) := ⟨_,_,List.mem_singleton.mpr rfl,rfl⟩

theorem taken_key_names_added_item : ∃ s log existingId existingValue c',
    (⟨.premap some .uniqueHashIndex,s,log⟩ : RegisteredIndex ℕ) ∈ taken.indexes ∧
    (Call.add 5).exec taken = .thrown (.conflict existingId existingValue) c' ∧
    ¬c'.NamesHolder some s 5 existingId existingValue := by
  obtain ⟨s,log,hix,_⟩ := taken_index
  exact ⟨s,log,Id.fromLong ⟨2,true⟩,some 5,_,hix,rfl,
    ((conflict_never_names_other_holder some).2 taken taken_reached s log hix).1 5 (by decide) _ _ _ rfl 5⟩

theorem holder_of_taken_key_not_named : Reached Call.exec Call.Proper new taken ∧ ∃ s log c',
    (⟨.premap some .uniqueHashIndex,s,log⟩ : RegisteredIndex ℕ) ∈ taken.indexes ∧
    s.get 5 = some (Id.fromLong ⟨1,true⟩) ∧
    (Call.add 5).exec taken = .thrown (.conflict (Id.fromLong ⟨2,true⟩) (some 5)) c' := by
  obtain ⟨s,log,hix,hg⟩ := taken_index
  exact ⟨taken_reached,s,log,_,hix,hg,rfl⟩

end Named

end Collection

end ComposableIndexes
