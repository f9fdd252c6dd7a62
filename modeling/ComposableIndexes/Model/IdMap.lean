import ComposableIndexes.Library.OrderedMap
import ComposableIndexes.Model.SimpleTypes

namespace ComposableIndexes

structure IdMap (T : Type) where
  map : OrderedMap (BitVec 32) (OrderedMap (BitVec 32) T)
  pruned : ∀ high m, map.get high = some m → m.size ≠ 0

namespace IdMap

variable {T : Type}

def new : IdMap T := ⟨OrderedMap.empty,by simp⟩

def find (m : IdMap T) (i : BitVec 64) : Option T :=
  (m.map.get (Long.mk i true).high).bind (fun inner => inner.get (Long.mk i true).low)

def get [JsValue T] (m : IdMap T) (key : Id) : Option T :=
  match m.map.get key.asLong.high with
  | none => none
  | some inner => (inner.get key.asLong.low).bind JsValue.orUndefined

def set (m : IdMap T) (key : Id) (value : T) : IdMap T :=
  ⟨m.map.set key.asLong.high (((m.map.get key.asLong.high).getD OrderedMap.empty).set key.asLong.low value),by
    intro high inner h
    rw [OrderedMap.get_set] at h
    split_ifs at h with hk
    · obtain rfl := Option.some.inj h
      intro hs
      have := (OrderedMap.size_eq_zero_iff _).mp hs key.asLong.low
      simp at this
    · exact m.pruned high inner h⟩

def delete (m : IdMap T) (key : Id) : IdMap T :=
  match m.map.get key.asLong.high with
  | none => m
  | some inner =>
    if hs : (inner.delete key.asLong.low).size = 0 then
      ⟨m.map.delete key.asLong.high,by
        intro high inner' h
        rw [OrderedMap.get_delete] at h
        split_ifs at h
        exact m.pruned high inner' h⟩
    else
      ⟨m.map.set key.asLong.high (inner.delete key.asLong.low),by
        intro high inner' h
        rw [OrderedMap.get_set] at h
        split_ifs at h
        · obtain rfl := Option.some.inj h
          exact hs
        · exact m.pruned high inner' h⟩

def empty (m : IdMap T) : Bool := m.map.size == 0

def entries (m : IdMap T) : List (Id × T) :=
  m.map.entries.flatMap (fun p => p.2.entries.map (fun q => (Id.fromLong (Long.fromBits q.1 p.1 true),q.2)))

-- The callback is a function on the state it changes.
def forEach {σ : Type} (m : IdMap T) (cb : T → Id → σ → σ) (s : σ) : σ :=
  m.entries.foldl (fun s p => cb p.2 p.1 s) s

theorem find_eq_get [JsValue T] (m : IdMap T) (key : Id) :
    m.get key = (m.find key.bits).bind JsValue.orUndefined := by
  have hh : (Long.mk key.bits true).high = key.asLong.high := rfl
  have hl : (Long.mk key.bits true).low = key.asLong.low := rfl
  unfold get find
  rw [hh,hl]
  cases m.map.get key.asLong.high <;> rfl

@[simp] theorem find_new (i : BitVec 64) : (new : IdMap T).find i = none := rfl

theorem halves_eq_iff (i j : BitVec 64) :
    i = j ↔ (Long.mk i true).high = (Long.mk j true).high ∧ (Long.mk i true).low = (Long.mk j true).low := by
  constructor
  · rintro rfl
    exact ⟨rfl,rfl⟩
  · rintro ⟨hh,hl⟩
    exact Long.bits_eq_of_halves hh hl

theorem find_set (m : IdMap T) (key : Id) (value : T) (i : BitVec 64) :
    (m.set key value).find i = if i = key.bits then some value else m.find i := by
  have hh : key.asLong.high = (Long.mk key.bits true).high := rfl
  have hl : key.asLong.low = (Long.mk key.bits true).low := rfl
  simp only [find,set,hh,hl,OrderedMap.get_set,halves_eq_iff i key.bits]
  by_cases h : (Long.mk i true).high = (Long.mk key.bits true).high
  · rw [if_pos h,Option.bind_some,OrderedMap.get_set]
    by_cases h' : (Long.mk i true).low = (Long.mk key.bits true).low
    · simp [h,h']
    · rw [if_neg h',if_neg (fun hc => h' hc.2),h]
      cases m.map.get (Long.mk key.bits true).high <;> simp
  · rw [if_neg h,if_neg (fun hc => h hc.1)]

theorem set_eq_self (m : IdMap T) {key : Id} {value : T} (h : m.find key.bits = some value) :
    m.set key value = m := by
  simp only [find,Option.bind_eq_some_iff] at h
  obtain ⟨inner,hm,hv⟩ := h
  have hm' : m.map.get key.asLong.high = some inner := hm
  have hv' : inner.get key.asLong.low = some value := hv
  obtain ⟨map,pruned⟩ := m
  simp only [set,hm',Option.getD_some,OrderedMap.set_of_get inner hv',OrderedMap.set_of_get map hm']

theorem find_delete (m : IdMap T) (key : Id) (i : BitVec 64) :
    (m.delete key).find i = if i = key.bits then none else m.find i := by
  have hh : key.asLong.high = (Long.mk key.bits true).high := rfl
  have hl : key.asLong.low = (Long.mk key.bits true).low := rfl
  simp only [delete,hh,hl,halves_eq_iff i key.bits]
  split
  · rename_i hm
    by_cases h : (Long.mk i true).high = (Long.mk key.bits true).high
    · simp [find,h,hm]
    · rw [if_neg (fun hc => h hc.1)]
  · rename_i inner hm
    have hd := inner.get_delete (Long.mk key.bits true).low (Long.mk i true).low
    by_cases hs : (inner.delete (Long.mk key.bits true).low).size = 0
    · rw [dif_pos hs]
      have hz := (OrderedMap.size_eq_zero_iff _).mp hs (Long.mk i true).low
      simp only [find,OrderedMap.get_delete]
      by_cases h : (Long.mk i true).high = (Long.mk key.bits true).high
      · rw [hz] at hd
        simp only [h,hm,if_true,Option.bind_none,Option.bind_some,true_and]
        exact hd
      · rw [if_neg h,if_neg (fun hc => h hc.1)]
    · rw [dif_neg hs]
      simp only [find,OrderedMap.get_set]
      by_cases h : (Long.mk i true).high = (Long.mk key.bits true).high
      · simp only [h,hm,if_true,Option.bind_some,true_and]
        exact hd
      · rw [if_neg h,if_neg (fun hc => h hc.1)]

theorem mem_entries (m : IdMap T) (id : Id) (v : T) :
    (id,v) ∈ m.entries ↔ id.Unsigned ∧ m.find id.bits = some v := by
  simp only [entries,List.mem_flatMap,List.mem_map,Prod.exists,Prod.mk.injEq]
  constructor
  · rintro ⟨high,inner,hm,low,x,hx,rfl,rfl⟩
    refine ⟨rfl,?_⟩
    have hm' := (m.map.mem_entries high inner).mp hm
    have hx' := (inner.mem_entries low x).mp hx
    have hh : (Long.mk (Id.fromLong (Long.fromBits low high true)).bits true).high = high :=
      Long.high_fromBits low high true
    have hl : (Long.mk (Id.fromLong (Long.fromBits low high true)).bits true).low = low :=
      Long.low_fromBits low high true
    simp [find,hh,hl,hm',hx']
  · rintro ⟨hu,h⟩
    simp only [find,Option.bind_eq_some_iff] at h
    obtain ⟨inner,hm,hx⟩ := h
    refine ⟨_,inner,(m.map.mem_entries _ inner).mpr hm,_,v,(inner.mem_entries _ v).mpr hx,?_,rfl⟩
    rw [Long.fromBits_halves]
    obtain ⟨⟨b,u⟩⟩ := id
    cases hu
    rfl

theorem entries_keys_nodup (m : IdMap T) : (m.entries.map Prod.fst).Nodup := by
  rw [entries,List.map_flatMap,List.nodup_flatMap]
  constructor
  · rintro ⟨high,inner⟩ _
    rw [List.map_map]
    have h := inner.nodupKeys
    apply List.Nodup.of_map (fun id : Id => id.asLong.low)
    simpa [Function.comp_def,Id.fromLong] using h
  · have h := m.map.nodupKeys
    rw [List.Nodup,List.pairwise_map] at h
    refine h.imp ?_
    rintro ⟨h₁,m₁⟩ ⟨h₂,m₂⟩ hne id hid hid'
    simp only [List.mem_map,List.map_map,Function.comp_def] at hid hid'
    obtain ⟨q,_,rfl⟩ := hid
    obtain ⟨q',_,he⟩ := hid'
    have := congrArg (fun id : Id => id.asLong.high) he
    simp only [Id.fromLong,Long.high_fromBits] at this
    exact hne this.symm

theorem empty_iff (m : IdMap T) : m.empty = true ↔ ∀ i, m.find i = none := by
  rw [empty,beq_iff_eq]
  constructor
  · intro h i
    simp [find,(OrderedMap.size_eq_zero_iff _).mp h]
  · intro h
    rw [OrderedMap.size_eq_zero_iff]
    intro high
    by_contra hn
    obtain ⟨inner,hm⟩ := Option.ne_none_iff_exists'.mp hn
    refine m.pruned high inner hm ((OrderedMap.size_eq_zero_iff _).mpr ?_)
    intro low
    have := h (Long.fromBits low high true).bits
    have hh : (Long.mk (Long.fromBits low high true).bits true).high = high := Long.high_fromBits low high true
    have hl : (Long.mk (Long.fromBits low high true).bits true).low = low := Long.low_fromBits low high true
    simpa [find,hh,hl,hm] using this

end IdMap

structure IdSet where
  inner : IdMap Unit

namespace IdSet

def new : IdSet := ⟨IdMap.new⟩

def set (s : IdSet) (value : Id) : IdSet := ⟨s.inner.set value ()⟩

def singleton (value : Id) : IdSet := new.set value

def delete (s : IdSet) (value : Id) : IdSet := ⟨s.inner.delete value⟩

def has (s : IdSet) (value : Id) : Bool := (s.inner.get value).isSome

def empty (s : IdSet) : Bool := s.inner.empty

def forEach {σ : Type} (s : IdSet) (cb : Id → σ → σ) (st : σ) : σ := s.inner.forEach (fun _ key => cb key) st

def values (s : IdSet) : List Id := s.inner.entries.map Prod.fst

def toSet (s : IdSet) : Set (BitVec 64) := {i | s.inner.find i = some ()}

theorem find_eq_none_iff (s : IdSet) (i : BitVec 64) : s.inner.find i = none ↔ i ∉ s.toSet := by
  cases h : s.inner.find i <;> simp [toSet,h]

@[simp] theorem toSet_new : new.toSet = ∅ := by
  ext i
  simp [toSet,new]

theorem toSet_set (s : IdSet) (value : Id) : (s.set value).toSet = insert value.bits s.toSet := by
  ext i
  simp only [toSet,set,IdMap.find_set,Set.mem_ofPred_eq,Set.mem_insert_iff]
  by_cases h : i = value.bits <;> simp [h]

theorem toSet_delete (s : IdSet) (value : Id) : (s.delete value).toSet = s.toSet \ {value.bits} := by
  ext i
  simp only [toSet,delete,IdMap.find_delete,Set.mem_ofPred_eq,Set.mem_sdiff,Set.mem_singleton_iff]
  by_cases h : i = value.bits <;> simp [h]

theorem empty_iff (s : IdSet) : s.empty = true ↔ s.toSet = ∅ := by
  rw [empty,IdMap.empty_iff,Set.eq_empty_iff_forall_notMem]
  exact forall_congr' s.find_eq_none_iff

theorem mem_values (s : IdSet) (id : Id) : id ∈ s.values ↔ id.Unsigned ∧ id.bits ∈ s.toSet := by
  simp only [values,List.mem_map,Prod.exists,IdMap.mem_entries,toSet,Set.mem_ofPred_eq]
  constructor
  · rintro ⟨_,⟨⟩,h,rfl⟩
    exact h
  · exact fun h => ⟨id,(),h,rfl⟩

theorem values_nodup (s : IdSet) : s.values.Nodup := s.inner.entries_keys_nodup

theorem values_perm {s t : IdSet} (h : s.toSet = t.toSet) : s.values.Perm t.values := by
  rw [List.perm_ext_iff_of_nodup s.values_nodup t.values_nodup]
  intro id
  rw [mem_values,mem_values,h]

end IdSet

end ComposableIndexes
