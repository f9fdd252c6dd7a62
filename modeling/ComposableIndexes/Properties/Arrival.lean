import ComposableIndexes.Properties.Halves
import ComposableIndexes.Properties.Independence

namespace ComposableIndexes

def highHalf (i : BitVec 64) : BitVec 32 := (Long.mk i true).high

def lowHalf (i : BitVec 64) : BitVec 32 := (Long.mk i true).low

theorem lowHalf_injective (high : BitVec 32) : OrderedMap.InjectiveWhere (fun i => highHalf i = high) lowHalf := by
  intro i j hi hj h
  exact (IdMap.halves_eq_iff i j).mpr ⟨hi.trans hj.symm,h⟩

-- The items in one line: a new one goes to the end, a rewritten one keeps its place.
structure Line (T : Type) where
  last : Id
  items : OrderedMap (BitVec 64) T

namespace Line

variable {T : Type}

def new : Line T := ⟨Id.fromLong Long.uzero,OrderedMap.empty⟩

def toList (l : Line T) : List (Id × T) := l.items.entries.map (fun q => (Id.fromLong ⟨q.1,true⟩,q.2))

def nextId (l : Line T) : Id := Id.fromLong (l.last.asLong.add Long.uone)

def add (value : T) (l : Line T) : Line T := ⟨l.nextId,l.items.set l.nextId.bits value⟩

def set (id : Id) (newValue : T) (l : Line T) : Line T :=
  ⟨if id.asLong.gt l.last.asLong then id else l.last,l.items.set id.bits newValue⟩

variable [JsValue T]

def get (l : Line T) (id : Id) : Option T := (l.items.get id.bits).bind JsValue.orUndefined

def delete (id : Id) (l : Line T) : Line T :=
  match l.get id with
  | none => l
  | some _ => ⟨l.last,l.items.delete id.bits⟩

def putBack (id : Id) (post : Option T) (l : Line T) : Line T :=
  match post with
  | none => l
  | some v => if JsValue.truthy v then l.set id v else l

def alter (id : Id) (f : Option T → Option T) (l : Line T) : Line T :=
  (if JsValue.truthyOption (l.get id) then l.delete id else l).putBack id (f (l.get id))

end Line

def Call.enter {T : Type} [JsValue T] : Call T → Line T → Line T
  | .registerIndex _ => id
  | .add value => Line.add value
  | .set id newValue => Line.set id newValue
  | .delete id => Line.delete id
  | .alter id f => Line.alter id (fun pre => (f pre).1)
  | .adjust id f => Line.alter id (fun pre => (Call.adjusted f pre).1)

namespace Line

variable {T : Type} {l : Line T} {t : Table T} {id : Id}

-- The store keeps the line in pieces, one for each upper half of an id.
structure Splits (l : Line T) (t : Table T) : Prop where
  last : t.last = l.last
  pieces : ∀ high, OrderedMap.Selects (fun i => highHalf i = high) lowHalf l.items (t.store.innerAt high)

theorem splits_new : Splits (new : Line T) ⟨Id.fromLong Long.uzero,IdMap.new⟩ :=
  ⟨rfl,fun _ => OrderedMap.selects_empty⟩

theorem Splits.set_piece (h : l.Splits t) (id : Id) (v : T) (high : BitVec 32) :
    OrderedMap.Selects (fun i => highHalf i = high) lowHalf (l.items.set id.bits v) ((t.store.set id v).innerAt high) := by
  rw [IdMap.innerAt_set]
  split_ifs with hk
  · exact (h.pieces high).set_in (lowHalf_injective high) hk.symm v
  · exact (h.pieces high).set_out (fun he => hk he.symm) v

theorem Splits.add (h : l.Splits t) (v : T) : (l.add v).Splits (t.add v) := by
  have hnext : t.nextId = l.nextId := by
    rw [Table.nextId,Line.nextId,h.last]
  refine ⟨hnext,?_⟩
  rw [Table.add,hnext]
  exact h.set_piece l.nextId v

theorem Splits.set (h : l.Splits t) (id : Id) (v : T) : (l.set id v).Splits (t.set id v) := by
  refine ⟨?_,h.set_piece id v⟩
  rw [Table.set,Line.set,h.last]

variable [JsValue T]

theorem Splits.get (h : l.Splits t) (id : Id) : t.store.get id = l.get id := by
  have hpiece : (t.store.innerAt id.asLong.high).get id.asLong.low = l.items.get id.bits :=
    (h.pieces id.asLong.high).get (lowHalf_injective _) rfl
  rw [IdMap.find_eq_get,IdMap.find_eq_innerAt,hpiece,Line.get]

theorem Splits.delete (h : l.Splits t) (id : Id) : (l.delete id).Splits (t.delete id) := by
  rw [Table.delete,Line.delete,h.get]
  cases l.get id with
  | none => exact h
  | some v =>
    refine ⟨h.last,?_⟩
    intro high
    rw [IdMap.innerAt_delete]
    split_ifs with hk
    · exact (h.pieces high).delete_in (lowHalf_injective high) hk.symm
    · exact (h.pieces high).delete_out (fun he => hk he.symm)

theorem Splits.putBack (h : l.Splits t) (id : Id) (post : Option T) : (l.putBack id post).Splits (t.putBack id post) := by
  cases post with
  | none => exact h
  | some v =>
    rw [Table.putBack,Line.putBack]
    split_ifs
    · exact h.set id v
    · exact h

theorem Splits.alter (h : l.Splits t) (id : Id) (f : Option T → Option T) : (l.alter id f).Splits (t.alter id f) := by
  rw [Table.alter,Line.alter,h.get]
  split_ifs
  · exact (h.delete id).putBack id _
  · exact h.putBack id _

theorem Splits.write (h : l.Splits t) (call : Call T) : (call.enter l).Splits (call.write t) := by
  cases call with
  | registerIndex e => exact h
  | add v => exact h.add v
  | set id v => exact h.set id v
  | delete id => exact h.delete id
  | alter id f => exact h.alter id (fun pre => (f pre).1)
  | adjust id f => exact h.alter id (fun pre => (Call.adjusted f pre).1)

theorem Splits.writes (h : l.Splits t) (calls : List (Call T)) :
    (calls.foldl (fun l call => call.enter l) l).Splits (calls.foldl (fun t call => call.write t) t) := by
  induction calls generalizing l t with
  | nil => exact h
  | cons call calls ih => exact ih (h.write call)

omit [JsValue T] in
theorem Splits.filter_toList (h : l.Splits t) (high : BitVec 32) :
    t.store.entries.filter (fun p => p.1.asLong.high = high) = l.toList.filter (fun p => p.1.asLong.high = high) := by
  have hpiece := h.pieces high
  unfold OrderedMap.Selects at hpiece
  rw [IdMap.filter_entries,hpiece,IdMap.block,List.map_map,toList,List.filter_map]
  refine List.map_congr_left ?_
  intro q hq
  have hhigh : highHalf q.1 = high := of_decide_eq_true (List.mem_filter.mp hq).2
  have hid : Long.fromBits (lowHalf q.1) high true = ⟨q.1,true⟩ := by
    rw [← hhigh]
    exact Long.fromBits_halves ⟨q.1,true⟩ true
  rw [Function.comp_apply,hid]

omit [JsValue T] in
theorem Splits.toList_eq (h : l.Splits t) {high : BitVec 32} (hone : ∀ p ∈ l.toList, p.1.asLong.high = high) :
    t.store.entries = l.toList := by
  have hone' : ∀ p ∈ t.store.entries, p.1.asLong.high = high := by
    intro p hp
    have hmem : p ∈ t.store.entries.filter (fun q => q.1.asLong.high = p.1.asLong.high) :=
      List.mem_filter.mpr ⟨hp,decide_eq_true rfl⟩
    rw [h.filter_toList] at hmem
    exact hone p (List.mem_filter.mp hmem).1
  have hfilter := h.filter_toList high
  rw [List.filter_eq_self.mpr (fun p hp => decide_eq_true (hone' p hp)),
    List.filter_eq_self.mpr (fun p hp => decide_eq_true (hone p hp))] at hfilter
  exact hfilter

end Line

namespace Collection

variable {T : Type} [JsValue T]

theorem items_in_arrival_order {calls : List (Call T)}
    (h : (∀ call ∈ calls, call.Plain) ∨ Procedure.Accepted Call.exec (fun _ _ => True) calls new) :
    let line := calls.foldl (fun l call => call.enter l) Line.new
    (∀ high, (Procedure.play Call.exec calls new).2.toList.filter (fun p => p.1.asLong.high = high) =
      line.toList.filter (fun p => p.1.asLong.high = high)) ∧
    ∀ high, (∀ p ∈ line.toList, p.1.asLong.high = high) → (Procedure.play Call.exec calls new).2.toList = line.toList := by
  have htable : (Procedure.play Call.exec calls new).2.table =
      calls.foldl (fun t call => call.write t) ⟨Id.fromLong Long.uzero,IdMap.new⟩ := by
    rcases h with hp | ha
    · exact play_table hp
    · exact accepted_table ha
  have hs := (Line.splits_new (T := T)).writes calls
  rw [← htable] at hs
  exact ⟨hs.filter_toList,fun high hone => hs.toList_eq hone⟩

def shuffledCalls : List (Call ℕ) :=
  [.registerIndex (.premap some .uniqueHashIndex),.add 5,.add 6,.add 5,.set (Id.fromLong ⟨1,true⟩) 9,
    .delete (Id.fromLong ⟨2,true⟩),.set (Id.fromLong ⟨2,true⟩) 7]

def adjustedCalls : List (Call ℕ) := [.add 5,.add 6,.adjust (Id.fromLong ⟨1,true⟩) (fun v => v + 2)]

theorem shuffled_order : (Procedure.play Call.exec shuffledCalls new).2.toList =
      [(Id.fromLong ⟨1,true⟩,9),(Id.fromLong ⟨3,true⟩,5),(Id.fromLong ⟨2,true⟩,7)] ∧
    (Procedure.play Call.exec adjustedCalls new).2.toList = [(Id.fromLong ⟨2,true⟩,6),(Id.fromLong ⟨1,true⟩,7)] :=
  ⟨(items_in_arrival_order (.inl (by simp [shuffledCalls,Call.Plain]))).2 0 (by decide),
    (items_in_arrival_order (.inr (by decide))).2 0 (by decide)⟩

end Collection

end ComposableIndexes
