import ComposableIndexes.Model.Iteration
import ComposableIndexes.Properties.Alter
import ComposableIndexes.Properties.Maintenance

namespace ComposableIndexes

namespace Cursor

variable {T : Type} {store : IdMap T} {cursor : Cursor} {key : Id} {high low : BitVec 32}

structure Valid (store : IdMap T) (cursor : Cursor) : Prop where
  outer : ∀ high ∈ cursor.outer, (store.map.get high).isSome = true
  inner : ∀ high lows, cursor.inner = some (high,lows) →
    ∃ m, store.map.get high = some m ∧ ∀ low ∈ lows, (m.get low).isSome = true

def Pending (cursor : Cursor) : Prop := cursor.outer ≠ [] ∨ ∃ high low lows, cursor.inner = some (high,low :: lows)

theorem start_valid (store : IdMap T) : (start store).Valid store :=
  ⟨fun high hh => (store.map.get_isSome_iff high).mpr hh,by simp [start]⟩

theorem find_fromBits (store : IdMap T) (low high : BitVec 32) :
    store.find (Id.fromLong (Long.fromBits low high true)).bits = (store.map.get high).bind (fun m => m.get low) := by
  have hh : (Long.mk (Id.fromLong (Long.fromBits low high true)).bits true).high = high := Long.high_fromBits low high true
  have hl : (Long.mk (Id.fromLong (Long.fromBits low high true)).bits true).low = low := Long.low_fromBits low high true
  rw [IdMap.find,hh,hl]

-- What `next` yields is an id of the store, inside the inner map the cursor is then in.
structure At (store : IdMap T) (id : Id) (cursor : Cursor) : Prop where
  valid : cursor.Valid store
  stored : ∃ v, store.find id.bits = some v
  inside : ∃ lows, cursor.inner = some (id.asLong.high,lows)

theorem at_fromBits {m : OrderedMap (BitVec 32) T} {outer lows : List (BitVec 32)} (hm : store.map.get high = some m)
    (hlow : (m.get low).isSome = true) (hlows : ∀ low ∈ lows, (m.get low).isSome = true)
    (houter : ∀ high ∈ outer, (store.map.get high).isSome = true) :
    At store (Id.fromLong (Long.fromBits low high true)) ⟨outer,some (high,lows)⟩ := by
  have hh : (Id.fromLong (Long.fromBits low high true)).asLong.high = high := Long.high_fromBits low high true
  refine ⟨⟨houter,?_⟩,?_,lows,by rw [hh]⟩
  · intro high' lows' he
    cases he
    exact ⟨m,hm,hlows⟩
  · obtain ⟨v,hv⟩ := Option.isSome_iff_exists.mp hlow
    exact ⟨v,by rw [find_fromBits,hm]; exact hv⟩

theorem nextOuter_at {highs : List (BitVec 32)} (h : ∀ high ∈ highs, (store.map.get high).isSome = true) (hne : highs ≠ []) :
    ∃ id cursor, nextOuter store highs = some (id,cursor) ∧ At store id cursor := by
  cases highs with
  | nil => exact absurd rfl hne
  | cons high highs =>
    obtain ⟨m,hm⟩ := Option.isSome_iff_exists.mp (h high (by simp))
    have hkeys : ∀ low ∈ m.keys, (m.get low).isSome = true := fun low hl => (m.get_isSome_iff low).mpr hl
    cases hk : m.keys with
    | nil =>
      refine absurd ?_ (store.pruned high m hm)
      have hl : m.keys.length = m.size := by simp [OrderedMap.keys,OrderedMap.size]
      rw [← hl,hk]
      rfl
    | cons low lows =>
      rw [hk] at hkeys
      refine ⟨_,⟨highs,some (high,lows)⟩,by simp [nextOuter,hm,hk],at_fromBits hm (hkeys low (by simp)) ?_ ?_⟩
      · intro low' hl
        exact hkeys low' (by simp [hl])
      · intro high' hh
        exact h high' (by simp [hh])

theorem next_at (hv : cursor.Valid store) (hp : cursor.Pending) :
    ∃ id cursor', cursor.next store = some (id,cursor') ∧ At store id cursor' := by
  obtain ⟨outer,inner⟩ := cursor
  match inner with
  | some (high,low :: lows) =>
    obtain ⟨m,hm,hlows⟩ := hv.inner high (low :: lows) rfl
    exact ⟨_,_,rfl,at_fromBits hm (hlows low (by simp)) (fun low' hl => hlows low' (by simp [hl])) hv.outer⟩
  | some (high,[]) =>
    refine nextOuter_at hv.outer ?_
    rcases hp with ho | ⟨_,_,_,he⟩
    · exact ho
    · cases he
  | none =>
    refine nextOuter_at hv.outer ?_
    rcases hp with ho | ⟨_,_,_,he⟩
    · exact ho
    · cases he

theorem delete_map (store : IdMap T) (key : Id) : (store.delete key).map =
    (store.map.get key.asLong.high).elim store.map (fun m =>
      if (m.delete key.asLong.low).size = 0 then store.map.delete key.asLong.high
      else store.map.set key.asLong.high (m.delete key.asLong.low)) := by
  unfold IdMap.delete
  split
  · rename_i hm
    rw [hm,Option.elim_none]
  · rename_i m hm
    rw [hm,Option.elim_some]
    split_ifs
    · rfl
    · rfl

theorem delete_map_pruned {m : OrderedMap (BitVec 32) T} (hm : store.map.get key.asLong.high = some m)
    (hs : (m.delete key.asLong.low).size = 0) : (store.delete key).map = store.map.delete key.asLong.high := by
  rw [delete_map,hm,Option.elim_some,if_pos hs]

theorem delete_map_kept {m : OrderedMap (BitVec 32) T} (hm : store.map.get key.asLong.high = some m)
    (hs : (m.delete key.asLong.low).size ≠ 0) :
    (store.delete key).map = store.map.set key.asLong.high (m.delete key.asLong.low) := by
  rw [delete_map,hm,Option.elim_some,if_neg hs]

-- An inner map is replaced, and with it the keys that are still to be visited in it.
theorem Valid.replace (h : cursor.Valid store) {store' : IdMap T} {m' : OrderedMap (BitVec 32) T}
    (hmap : store'.map = store.map.set high m') {outer : List (BitVec 32)}
    (houter : ∀ high' ∈ outer, high' ≠ high → high' ∈ cursor.outer) {F : BitVec 32 → List (BitVec 32) → List (BitVec 32)}
    (hF : ∀ m lows, store.map.get high = some m → (∀ low ∈ lows, (m.get low).isSome = true) →
      ∀ low ∈ F high lows, (m'.get low).isSome = true) :
    Valid store' ⟨outer,cursor.inner.map (fun p => if p.1 = high then (p.1,F p.1 p.2) else p)⟩ := by
  refine ⟨?_,?_⟩
  · intro high' hh
    rw [hmap,OrderedMap.get_set]
    split_ifs with hk
    · rfl
    · exact h.outer high' (houter high' hh hk)
  · intro high' lows' hi
    simp only [Option.map_eq_some_iff] at hi
    obtain ⟨⟨high₀,lows⟩,hc,hp⟩ := hi
    obtain ⟨m,hm,hlows⟩ := h.inner high₀ lows hc
    rw [hmap,OrderedMap.get_set]
    split_ifs at hp with hk
    · cases hp
      obtain rfl : high₀ = high := hk
      rw [if_pos rfl]
      exact ⟨m',rfl,hF m lows hm hlows⟩
    · cases hp
      rw [if_neg hk]
      exact ⟨m,hm,hlows⟩

theorem set_valid (h : cursor.Valid store) (key : Id) (v : T) : (cursor.set store key).Valid (store.set key v) := by
  have hmap : (store.set key v).map = store.map.set key.asLong.high
      (((store.map.get key.asLong.high).getD OrderedMap.empty).set key.asLong.low v) := rfl
  refine h.replace (F := fun high' lows => ((store.map.get high').getD OrderedMap.empty).pendingSet key.asLong.low lows)
    hmap (fun high' hh hk => OrderedMap.mem_pendingSet hh hk) ?_
  intro m lows hm hlows low hl
  rw [hm,Option.getD_some] at hl
  rw [hm,Option.getD_some,OrderedMap.get_set]
  split_ifs with hlow
  · rfl
  · exact hlows low (OrderedMap.mem_pendingSet hl hlow)

theorem delete_valid_pruned (h : cursor.Valid store) {m : OrderedMap (BitVec 32) T}
    (hm : store.map.get key.asLong.high = some m) (hs : (m.delete key.asLong.low).size = 0) :
    (cursor.delete store key).Valid (store.delete key) := by
  simp only [delete,hm,if_pos hs]
  refine ⟨?_,?_⟩
  · intro high hh
    obtain ⟨ho,hne⟩ := List.mem_filter.mp hh
    rw [delete_map_pruned hm hs,OrderedMap.get_delete,if_neg (by simpa using hne)]
    exact h.outer high ho
  · intro high lows hi
    rw [Option.filter_eq_some_iff] at hi
    obtain ⟨hc,hne⟩ := hi
    rw [delete_map_pruned hm hs,OrderedMap.get_delete,if_neg (by simpa using hne)]
    exact h.inner high lows hc

theorem delete_valid_kept (h : cursor.Valid store) {m : OrderedMap (BitVec 32) T}
    (hm : store.map.get key.asLong.high = some m) (hs : (m.delete key.asLong.low).size ≠ 0) :
    (cursor.delete store key).Valid (store.delete key) := by
  simp only [delete,hm,if_neg hs]
  refine h.replace (F := fun _ lows => OrderedMap.pendingDelete key.asLong.low lows) (delete_map_kept hm hs)
    (fun high' hh _ => hh) ?_
  intro m' lows hm' hlows low hl
  obtain rfl : m' = m := Option.some.inj (hm'.symm.trans hm)
  obtain ⟨hl',hne⟩ := List.mem_filter.mp hl
  rw [OrderedMap.get_delete,if_neg (by simpa using hne)]
  exact hlows low hl'

theorem delete_valid (h : cursor.Valid store) (key : Id) : (cursor.delete store key).Valid (store.delete key) := by
  cases hm : store.map.get key.asLong.high with
  | none =>
    have hmap : (store.delete key).map = store.map := by rw [delete_map,hm,Option.elim_none]
    simp only [delete,hm]
    exact ⟨by rw [hmap]; exact h.outer,by rw [hmap]; exact h.inner⟩
  | some m =>
    by_cases hs : (m.delete key.asLong.low).size = 0
    · exact delete_valid_pruned h hm hs
    · exact delete_valid_kept h hm hs

-- The visited item is deleted and put back: behind the cursor it leaves, ahead of it it returns.
theorem requeued (h : At store key cursor) : ((cursor.delete store key).set (store.delete key) key).Pending := by
  obtain ⟨lows,hi⟩ := h.inside
  obtain ⟨m,hm,_⟩ := h.valid.inner _ _ hi
  by_cases hs : (m.delete key.asLong.low).size = 0
  · refine .inl ?_
    have hgone : (store.delete key).map.has key.asLong.high = false := by
      simp [delete_map_pruned hm hs,OrderedMap.get_delete]
    simp only [set,OrderedMap.pendingSet,hgone]
    simp
  · refine .inr ?_
    have hkept : (store.delete key).map.get key.asLong.high = some (m.delete key.asLong.low) := by
      rw [delete_map_kept hm hs,OrderedMap.get_set_self]
    simp only [set,delete,hm,if_neg hs,hi,Option.map_some,if_true,hkept,Option.getD_some]
    have hout : (m.delete key.asLong.low).has key.asLong.low = false := by simp [OrderedMap.get_delete]
    simp only [OrderedMap.pendingSet,hout]
    cases OrderedMap.pendingDelete key.asLong.low lows with
    | nil => exact ⟨_,_,_,rfl⟩
    | cons low' lows' => exact ⟨_,_,_,rfl⟩

end Cursor

namespace Live

open Cursor (At)

variable {T Ret : Type} [JsValue T] {c : Collection T} {live live' : Live T} {id : Id} {g : T → T}

def putBack (id : Id) (r : Option T × Ret) : Procedure (Exception T) (Live T) Ret :=
  match r.1 with
  | none => pure r.2
  | some v => do
      if JsValue.truthy v then
        set id v
      pure r.2

theorem alter_keep (f : Option T → Option T × Ret) (h : JsValue.truthyOption (live.collection.get id) = false) :
    alter id f live = putBack id (f (live.collection.get id)) live := by
  rw [alter,Procedure.bind_returned (Procedure.read_apply _ live),if_neg (by simp [h])]
  rfl

theorem alter_drop (f : Option T → Option T × Ret) (h : JsValue.truthyOption (live.collection.get id) = true)
    {old : Option T} (hd : delete id live = .returned old live') :
    alter id f live = putBack id (f (live.collection.get id)) live' := by
  rw [alter,Procedure.bind_returned (Procedure.read_apply _ live),if_pos h]
  exact Procedure.bind_returned hd

theorem alter_thrown (f : Option T → Option T × Ret) (h : JsValue.truthyOption (live.collection.get id) = true)
    {e : Exception T} (hd : delete id live = .thrown e live') : alter id f live = .thrown e live' := by
  rw [alter,Procedure.bind_returned (Procedure.read_apply _ live),if_pos h]
  exact Procedure.bind_thrown hd

theorem putBack_apply (id : Id) (r : Option T × Ret) (live : Live T) : ∃ cursor,
    putBack id r live = (Collection.putBack id r live.collection).mapState (fun c => ⟨c,cursor⟩) := by
  obtain ⟨post,ret⟩ := r
  cases post with
  | none => exact ⟨live.cursor,rfl⟩
  | some v =>
    cases hv : JsValue.truthy v with
    | false => exact ⟨live.cursor,by simp [putBack,Collection.putBack,hv,Outcome.mapState]⟩
    | true =>
      refine ⟨live.cursor.set live.collection.store id,?_⟩
      simp only [putBack,Collection.putBack,hv,if_true,Procedure.bind_apply,set]
      cases Collection.set id v live.collection <;> rfl

-- Watched by a cursor or not, `alter` does the same to the collection.
theorem alter_apply (id : Id) (f : Option T → Option T × Ret) (live : Live T) : ∃ cursor,
    alter id f live = (Collection.alter id f live.collection).mapState (fun c => ⟨c,cursor⟩) := by
  cases ht : JsValue.truthyOption (live.collection.get id) with
  | false =>
    rw [alter_keep f ht,Collection.alter_keep f ht]
    exact putBack_apply id _ live
  | true =>
    cases hd : Collection.delete id live.collection with
    | thrown e c₁ =>
      have hdl : delete id live = .thrown e ⟨c₁,(if (live.collection.get id).isSome then
          live.cursor.delete live.collection.store id else live.cursor)⟩ := by
        simp only [delete,hd,Outcome.mapState]
      rw [alter_thrown f ht hdl,Collection.alter_thrown f ht hd]
      exact ⟨_,rfl⟩
    | returned old c₁ =>
      have hdl : delete id live = .returned old ⟨c₁,(if (live.collection.get id).isSome then
          live.cursor.delete live.collection.store id else live.cursor)⟩ := by
        simp only [delete,hd,Outcome.mapState]
      rw [alter_drop f ht hdl,Collection.alter_drop f ht hd]
      exact putBack_apply id _ _

def Truthy (store : IdMap T) : Prop := ∀ i v, store.find i = some v → JsValue.truthy v = true

theorem Truthy.delete {store : IdMap T} (h : Truthy store) (id : Id) : Truthy (store.delete id) := by
  intro i w hw
  rw [IdMap.find_delete] at hw
  split_ifs at hw
  exact h i w hw

theorem Truthy.set {store : IdMap T} (h : Truthy store) (id : Id) {v : T} (hv : JsValue.truthy v = true) :
    Truthy (store.set id v) := by
  intro i w hw
  rw [IdMap.find_set] at hw
  split_ifs at hw
  · cases hw
    exact hv
  · exact h i w hw

structure Busy (live : Live T) : Prop where
  valid : live.cursor.Valid live.collection.store
  pending : live.cursor.Pending
  truthy : Truthy live.collection.store

theorem delete_returned {v : T} {old : Option T} (hget : live.collection.get id = some v)
    (hd : delete id live = .returned old live') : live'.collection.store = live.collection.store.delete id ∧
      live'.cursor = live.cursor.delete live.collection.store id := by
  have hstore := Collection.delete_store hget
  cases hc : Collection.delete id live.collection with
  | thrown e c₁ =>
    simp only [delete,hc,Outcome.mapState] at hd
    cases hd
  | returned a c₁ =>
    rw [hc] at hstore
    simp only [delete,hget,hc,Outcome.mapState] at hd
    cases hd
    exact ⟨hstore,rfl⟩

theorem set_returned {v : T} (hs : set id v live = .returned () live') :
    live'.collection.store = live.collection.store.set id v ∧ live'.cursor = live.cursor.set live.collection.store id := by
  have hstore := Collection.set_store id v live.collection
  cases hc : Collection.set id v live.collection with
  | thrown e c₁ =>
    simp only [set,hc,Outcome.mapState] at hs
    cases hs
  | returned a c₁ =>
    rw [hc] at hstore
    simp only [set,hc,Outcome.mapState] at hs
    cases hs
    exact ⟨hstore,rfl⟩

theorem adjust_returned {v : T} (hget : live.collection.get id = some v) (hv : JsValue.truthy v = true)
    (hgv : JsValue.truthy (g v) = true) (hr : adjust id g live = .returned () live') :
    ∃ old live₁, delete id live = .returned old live₁ ∧ set id (g v) live₁ = .returned () live' := by
  have hpre : JsValue.truthyOption (live.collection.get id) = true := by
    rw [hget]
    exact hv
  cases hd : delete id live with
  | thrown e live₁ =>
    rw [adjust,alter_thrown _ hpre hd] at hr
    cases hr
  | returned old live₁ =>
    refine ⟨old,live₁,rfl,?_⟩
    rw [adjust,alter_drop _ hpre hd,if_pos hpre,hget] at hr
    simp only [putBack,Option.map_some,hgv,if_true,Procedure.bind_apply] at hr
    cases hs : set id (g v) live₁ with
    | thrown e live₂ =>
      rw [hs] at hr
      cases hr
    | returned a live₂ =>
      rw [hs] at hr
      cases hr
      rfl

theorem adjust_busy (live : Live T) {live' : Live T} (h : At live.collection.store id live.cursor)
    (ht : Truthy live.collection.store) (hg : ∀ v, JsValue.truthy (g v) = true) (hr : adjust id g live = .returned () live') : live'.Busy := by
  obtain ⟨v,hv⟩ := h.stored
  have htv := ht id.bits v hv
  have hget : live.collection.get id = some v := Collection.get_of_contents hv (JsValue.defined_of_truthy v htv)
  obtain ⟨old,live₁,hd,hs⟩ := adjust_returned hget htv (hg v) hr
  obtain ⟨hstore₁,hcursor₁⟩ := delete_returned hget hd
  obtain ⟨hstore,hcursor⟩ := set_returned hs
  rw [hstore₁] at hstore hcursor
  rw [hcursor₁] at hcursor
  refine ⟨?_,?_,?_⟩
  · rw [hstore,hcursor]
    exact Cursor.set_valid (Cursor.delete_valid h.valid id) id (g v)
  · rw [hcursor]
    exact Cursor.requeued h
  · rw [hstore]
    exact (ht.delete id).set id (hg v)

theorem start_busy {id : Id} {v : T} (hf : c.store.find id.bits = some v) (ht : Truthy c.store) : (start c).Busy := by
  refine ⟨Cursor.start_valid c.store,.inl ?_,ht⟩
  intro hk
  cases hg : c.store.map.get id.asLong.high with
  | none =>
    have hn : c.store.find id.bits = (c.store.map.get id.asLong.high).bind (fun m => m.get id.asLong.low) := rfl
    rw [hn,hg] at hf
    cases hf
  | some m =>
    have hmem := (c.store.map.get_isSome_iff _).mp (Option.isSome_of_eq_some hg)
    have hkeys : c.store.map.keys = [] := hk
    rw [hkeys] at hmem
    cases hmem

theorem start_done (h : c.toList = []) : forEach (fun _ id => adjust id g) 1 (start c) = .returned (some []) (start c) := by
  have hk : c.store.map.keys = [] := by
    by_contra hk
    obtain ⟨id,cursor,_,hat⟩ := Cursor.next_at (Cursor.start_valid c.store) (.inl hk)
    obtain ⟨v,hv⟩ := hat.stored
    have hmem : (Id.fromLong ⟨id.bits,true⟩,v) ∈ c.toList := Collection.mem_toList.mpr ⟨rfl,hv⟩
    rw [h] at hmem
    cases hmem
  simp [forEach,start,Cursor.start,Cursor.next,Cursor.nextOuter,hk]

theorem forEach_busy (hg : ∀ v, JsValue.truthy (g v) = true) (fuel : ℕ) (h : live.Busy) :
    (∃ live', forEach (fun _ id => adjust id g) fuel live = .returned none live') ∨
    (forEach (fun _ id => adjust id g) fuel live).Throws := by
  induction fuel generalizing live with
  | zero => exact .inl ⟨live,rfl⟩
  | succ fuel ih =>
    obtain ⟨id,cursor,hn,hat⟩ := Cursor.next_at h.valid h.pending
    obtain ⟨v,hv⟩ := hat.stored
    simp only [forEach,hn,hv]
    cases ha : adjust id g ⟨live.collection,cursor⟩ with
    | thrown e live' => exact .inr (Outcome.throws_thrown _ _)
    | returned a live' =>
      rcases ih (adjust_busy ⟨live.collection,cursor⟩ hat h.truthy hg ha) with ⟨live'',hr⟩ | ⟨e,live'',hr⟩
      · exact .inl ⟨live'',by simp [hr]⟩
      · exact .inr ⟨e,live'',by simp [hr]⟩

theorem forEach_returns {I : Collection T → Prop}
    (hI : ∀ id c, I c → ∃ c', Collection.adjust id g c = .returned () c' ∧ I c') (fuel : ℕ) (live : Live T)
    (h : I live.collection) :
    (forEach (fun _ id => adjust id g) fuel live).Returns := by
  induction fuel generalizing live with
  | zero => exact Outcome.returns_returned _ _
  | succ fuel ih =>
    cases hn : live.cursor.next live.collection.store with
    | none => simp [forEach,hn]
    | some p =>
      obtain ⟨id,cursor⟩ := p
      cases hv : live.collection.store.find id.bits with
      | none => simp [forEach,hn,hv]
      | some v =>
        obtain ⟨c',hc,hI'⟩ := hI id live.collection h
        obtain ⟨cursor',ha⟩ := alter_apply id (Call.adjusted g) ⟨live.collection,cursor⟩
        have hlive : adjust id g ⟨live.collection,cursor⟩ = .returned () ⟨c',cursor'⟩ := by
          have hc' : Collection.alter id (Call.adjusted g) live.collection = .returned () c' := hc
          rw [hc'] at ha
          exact ha
        obtain ⟨visits,live'',hr⟩ : (forEach (fun _ id => adjust id g) fuel ⟨c',cursor'⟩).Returns := ih _ hI'
        simp [forEach,hn,hv,hlive,hr]

def AdjustsEachOnce (c : Collection T) (g : T → T) : Prop :=
  ∃ fuel visits live, forEach (fun _ id => adjust id g) fuel (start c) = .returned (some visits) live ∧
    visits.Perm (c.toList.map Prod.fst) ∧ ∀ p ∈ c.toList, live.collection.get p.1 = some (g p.2)

theorem truthy_of_toList (h : ∀ p ∈ c.toList, JsValue.truthy p.2 = true) : Truthy c.store := by
  intro i v hv
  exact h (Id.fromLong ⟨i,true⟩,v) (Collection.mem_toList.mpr ⟨rfl,hv⟩)

theorem forEach_adjust_stuck (hg : ∀ v, JsValue.truthy (g v) = true) (ht : ∀ p ∈ c.toList, JsValue.truthy p.2 = true)
    (hne : c.toList ≠ []) (fuel : ℕ) : (∃ live, forEach (fun _ id => adjust id g) fuel (start c) = .returned none live) ∨
      (forEach (fun _ id => adjust id g) fuel (start c)).Throws := by
  obtain ⟨⟨id,v⟩,hm⟩ := List.exists_mem_of_ne_nil _ hne
  exact forEach_busy hg fuel (start_busy (Collection.mem_toList.mp hm).2 (truthy_of_toList ht))

theorem adjust_returns (hc : c.Consistent (fun _ => True)) (hix : ∀ e ∈ c.exprs, e.NoUnique) (id : Id) (g : T → T) :
    ∃ c', Collection.adjust id g c = .returned () c' ∧ c'.Consistent (fun _ => True) ∧ ∀ e ∈ c'.exprs, e.NoUnique := by
  have hn : ∀ S u, ¬c.Clash S u := by
    intro S u hcl
    obtain ⟨e,he,hcl⟩ := (Collection.clash_iff c S u).mp hcl
    exact e.not_clashes_of_noUnique (hix e he) S u hcl
  have hexprs := Collection.alter_exprs id (Call.adjusted g) c
  rcases Collection.alter_cases hc trivial (Call.adjusted g) with ⟨_,c',hr,hc'⟩ | ⟨hcl,_⟩
  · rw [hr] at hexprs
    refine ⟨c',hr,hc',?_⟩
    have he : c'.exprs = c.exprs := hexprs
    rwa [he]
  · exact absurd hcl (Collection.not_alterClash hn id _)

theorem forEach_adjust_once_iff (hg : ∀ v, JsValue.truthy (g v) = true) (ht : ∀ p ∈ c.toList, JsValue.truthy p.2 = true) :
    (AdjustsEachOnce c g ↔ c.toList = []) ∧
    (Reached Call.exec Call.Proper Collection.new c → (∀ ix ∈ c.indexes, ix.expr.NoUnique) → c.toList ≠ [] →
      ∀ fuel, ∃ live, forEach (fun _ id => adjust id g) fuel (start c) = .returned none live) := by
  refine ⟨⟨?_,?_⟩,?_⟩
  · rintro ⟨fuel,visits,live,hr,_⟩
    by_contra hne
    rcases forEach_adjust_stuck hg ht hne fuel with ⟨live',hs⟩ | ⟨e,live',hs⟩
    · rw [hr] at hs
      cases hs
    · rw [hr] at hs
      cases hs
  · intro h
    exact ⟨1,[],start c,start_done h,by simp [h],by simp [h]⟩
  · intro h hix hne fuel
    rcases forEach_adjust_stuck hg ht hne fuel with hs | ⟨e,live',hs⟩
    · exact hs
    · have hn : ∀ e ∈ c.exprs, e.NoUnique := by
        intro e he
        obtain ⟨ix,hm,rfl⟩ := List.mem_map.mp he
        exact hix ix hm
      have hret := forEach_returns (g := g) (I := fun c => c.Consistent (fun _ => True) ∧ ∀ e ∈ c.exprs, e.NoUnique)
        (fun id c hI => adjust_returns hI.1 hI.2 id g) fuel (start c) ⟨Collection.proper_consistent h,hn⟩
      rw [hs] at hret
      exact absurd hret (Outcome.not_returns_thrown _ _)

def onlyOne : Collection ℕ := (Procedure.play Call.exec [.registerIndex .hashIndex,.add 1] Collection.new).2

theorem onlyOne_reached : Reached Call.exec Call.Proper Collection.new onlyOne :=
  Procedure.reached_play _ .start (by decide)

theorem onlyOne_noUnique : ∀ ix ∈ onlyOne.indexes, ix.expr.NoUnique := by
  intro ix hix
  rw [List.mem_singleton.mp hix]
  trivial

theorem no_items_adjusted_once : AdjustsEachOnce (Collection.new : Collection ℕ) Nat.succ ∧
    ∀ fuel, ∃ live, forEach (fun _ id => adjust id Nat.succ) fuel (start onlyOne) = .returned none live :=
  ⟨(forEach_adjust_once_iff (fun _ => rfl) (by decide)).1.mpr rfl,
    (forEach_adjust_once_iff (c := onlyOne) (fun _ => rfl) (by decide)).2 onlyOne_reached onlyOne_noUnique (by decide)⟩

theorem adjusting_one_item_never_ends : Reached Call.exec Call.Proper Collection.new onlyOne ∧
    (∀ ix ∈ onlyOne.indexes, ix.expr.NoUnique) ∧ (∀ p ∈ onlyOne.toList, JsValue.truthy p.2 = true) ∧
    (∀ v : ℕ, JsValue.truthy (Nat.succ v) = true) ∧ ¬AdjustsEachOnce onlyOne Nat.succ := by
  refine ⟨onlyOne_reached,onlyOne_noUnique,by decide,fun _ => rfl,?_⟩
  rintro ⟨fuel,visits,live,hr,_⟩
  have hstuck := forEach_adjust_stuck (c := onlyOne) (g := Nat.succ) (fun _ => rfl) (by decide) (by decide) fuel
  rw [hr] at hstuck
  rcases hstuck with ⟨live',hs⟩ | ⟨e,live',hs⟩ <;> cases hs

end Live

end ComposableIndexes
