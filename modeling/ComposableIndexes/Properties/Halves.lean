import ComposableIndexes.Library.Selection
import ComposableIndexes.Properties.Iteration

namespace ComposableIndexes

namespace IdMap

variable {T : Type}

def innerAt (m : IdMap T) (high : BitVec 32) : OrderedMap (BitVec 32) T := (m.map.get high).getD OrderedMap.empty

def block (high : BitVec 32) (inner : List (BitVec 32 × T)) : List (Id × T) :=
  inner.map (fun q => (Id.fromLong (Long.fromBits q.1 high true),q.2))

theorem innerAt_of_get {m : IdMap T} {high : BitVec 32} {inner : OrderedMap (BitVec 32) T} (h : m.map.get high = some inner) :
    m.innerAt high = inner := by
  rw [innerAt,h,Option.getD_some]

theorem find_eq_innerAt (m : IdMap T) (key : Id) : m.find key.bits = (m.innerAt key.asLong.high).get key.asLong.low := by
  have hf : m.find key.bits = (m.map.get key.asLong.high).bind (fun inner => inner.get key.asLong.low) := rfl
  rw [hf,innerAt]
  cases m.map.get key.asLong.high <;> rfl

theorem innerAt_set (m : IdMap T) (key : Id) (v : T) (high : BitVec 32) : (m.set key v).innerAt high =
    if high = key.asLong.high then (m.innerAt high).set key.asLong.low v else m.innerAt high := by
  have hmap : (m.set key v).map = m.map.set key.asLong.high ((m.innerAt key.asLong.high).set key.asLong.low v) := rfl
  rw [innerAt,hmap,OrderedMap.get_set]
  split_ifs with hk
  · rw [Option.getD_some,hk]
  · rfl

theorem empty_of_size {inner : OrderedMap (BitVec 32) T} (h : inner.size = 0) : inner = OrderedMap.empty :=
  OrderedMap.ext (List.length_eq_zero_iff.mp h)

theorem innerAt_delete (m : IdMap T) (key : Id) (high : BitVec 32) : (m.delete key).innerAt high =
    if high = key.asLong.high then (m.innerAt high).delete key.asLong.low else m.innerAt high := by
  cases hm : m.map.get key.asLong.high with
  | none =>
    have hmap : (m.delete key).map = m.map := by rw [Cursor.delete_map,hm,Option.elim_none]
    rw [innerAt,hmap]
    split_ifs with hk
    · rw [hk,innerAt,hm,Option.getD_none]
      rfl
    · rfl
  | some inner =>
    by_cases hs : (inner.delete key.asLong.low).size = 0
    · rw [innerAt,Cursor.delete_map_pruned hm hs,OrderedMap.get_delete]
      split_ifs with hk
      · rw [hk,innerAt_of_get hm,empty_of_size hs,Option.getD_none]
      · rfl
    · rw [innerAt,Cursor.delete_map_kept hm hs,OrderedMap.get_set]
      split_ifs with hk
      · rw [hk,innerAt_of_get hm,Option.getD_some]
      · rfl

theorem filter_entries (m : IdMap T) (high : BitVec 32) :
    m.entries.filter (fun p => p.1.asLong.high = high) = block high (m.innerAt high).entries := by
  have hblock (p : BitVec 32 × OrderedMap (BitVec 32) T) : (block p.1 p.2.entries).filter (fun q => q.1.asLong.high = high) =
      if p.1 = high then block p.1 p.2.entries else [] := by
    have hhigh : ∀ q ∈ block p.1 p.2.entries, q.1.asLong.high = p.1 := by
      intro q hq
      obtain ⟨r,_,rfl⟩ := List.mem_map.mp hq
      exact Long.high_fromBits _ _ _
    split_ifs with hp
    · exact List.filter_eq_self.mpr (fun q hq => decide_eq_true ((hhigh q hq).trans hp))
    · refine List.filter_eq_nil_iff.mpr (fun q hq he => hp ?_)
      rw [← hhigh q hq]
      exact of_decide_eq_true he
  have hentries : m.entries = m.map.entries.flatMap (fun p => block p.1 p.2.entries) := rfl
  rw [hentries,List.filter_flatMap]
  simp only [hblock]
  rw [OrderedMap.flatMap_at_key m.map high (fun high inner => block high inner.entries),innerAt]
  cases m.map.get high <;> rfl

end IdMap

end ComposableIndexes
