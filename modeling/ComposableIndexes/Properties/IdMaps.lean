import ComposableIndexes.Properties.Replay

namespace ComposableIndexes

namespace Write

variable {T : Type}

def id : Write T → Id
  | .set id _ => id
  | .delete id => id

def value : Write T → Option T
  | .set _ newValue => some newValue
  | .delete _ => none

def last (ws : List (Write T)) (id : Id) : Option (Write T) := ws.lastOn Write.id id

theorem last_eq_bits {ws : List (Write T)} (hu : ∀ w ∈ ws, w.id.Unsigned) {id : Id} (hid : id.Unsigned) :
    ws.lastOn (fun w => w.id.bits) id.bits = last ws id := by
  refine List.lastOn_congr ?_
  intro w hw
  constructor
  · exact Id.eq_of_bits (hu w hw) hid
  · exact congrArg Id.bits

theorem last_set_iff {ws : List (Write T)} {id : Id} {v : T} :
    last ws id = some (.set id v) ↔ (last ws id).bind Write.value = some v := by
  constructor
  · intro h
    rw [h]
    rfl
  · intro h
    obtain ⟨w,hw,hv⟩ := Option.bind_eq_some_iff.mp h
    have hid := List.key_of_lastOn hw
    cases w with
    | set id' v' =>
      cases hid
      cases hv
      exact hw
    | delete id' => cases hv

end Write

namespace IdMap

variable {T : Type}

def write (m : IdMap T) : Write T → IdMap T
  | .set key value => m.set key value
  | .delete key => m.delete key

def ofWrites (ws : List (Write T)) : IdMap T := ws.foldl write new

theorem find_write (m : IdMap T) (w : Write T) (i : BitVec 64) :
    (m.write w).find i = if w.id.bits = i then w.value else m.find i := by
  cases w with
  | set key value =>
    rw [write,find_set]
    simp only [eq_comm,Write.id,Write.value]
  | delete key =>
    rw [write,find_delete]
    simp only [eq_comm,Write.id,Write.value]

theorem find_ofWrites (ws : List (Write T)) (i : BitVec 64) :
    (ofWrites ws).find i = (ws.lastOn (fun w => w.id.bits) i).bind Write.value := by
  rw [ofWrites,List.foldl_lastOn find_write]
  cases ws.lastOn (fun w => w.id.bits) i <;> rfl

theorem find_ofWrites_unsigned {ws : List (Write T)} (hu : ∀ w ∈ ws, w.id.Unsigned) {id : Id} (hid : id.Unsigned) :
    (ofWrites ws).find id.bits = (Write.last ws id).bind Write.value := by
  rw [find_ofWrites,Write.last_eq_bits hu hid]

theorem forEach_collects {β : Type} (m : IdMap T) (f : T → Id → β) :
    m.forEach (fun value key (seen : List β) => seen ++ [f value key]) [] = m.entries.map (fun p => f p.2 p.1) := by
  have h (xs : List (Id × T)) (seen : List β) :
      xs.foldl (fun s p => s ++ [f p.2 p.1]) seen = seen ++ xs.map (fun p => f p.2 p.1) := by
    induction xs generalizing seen with
    | nil => simp
    | cons p xs ih => simp [ih]
  exact h m.entries []

theorem forEach_entries (m : IdMap T) :
    m.forEach (fun value key (seen : List (Id × T)) => seen ++ [(key,value)]) [] = m.entries :=
  (m.forEach_collects (fun value key => (key,value))).trans (List.map_id' m.entries)

-- What the map answers after the calls `ws`, said of the calls alone.
structure Represents [JsValue T] (m : IdMap T) (ws : List (Write T)) : Prop where
  pruned : ∀ high inner, m.map.get high = some inner → inner.size ≠ 0
  get : ∀ key : Id, key.Unsigned → m.get key = match Write.last ws key with
    | some (.set _ value) => JsValue.orUndefined value
    | _ => none
  once : (m.entries.map Prod.fst).Nodup
  entries : ∀ id v, (id,v) ∈ m.entries ↔ Write.last ws id = some (.set id v)
  forEach : m.forEach (fun value key (seen : List (Id × T)) => seen ++ [(key,value)]) [] = m.entries
  empty : m.empty = true ↔ ∀ id v, Write.last ws id ≠ some (.set id v)

theorem mem_entries_ofWrites {ws : List (Write T)} (hu : ∀ w ∈ ws, w.id.Unsigned) (id : Id) (v : T) :
    (id,v) ∈ (ofWrites ws).entries ↔ Write.last ws id = some (.set id v) := by
  rw [mem_entries]
  constructor
  · rintro ⟨hid,hv⟩
    rw [find_ofWrites_unsigned hu hid] at hv
    exact Write.last_set_iff.mpr hv
  · intro h
    have hid : id.Unsigned := hu _ (List.mem_of_lastOn h)
    refine ⟨hid,?_⟩
    rw [find_ofWrites_unsigned hu hid]
    exact Write.last_set_iff.mp h

theorem entries_eq_nil_iff (m : IdMap T) : m.empty = true ↔ m.entries = [] := by
  rw [empty_iff,List.eq_nil_iff_forall_not_mem]
  constructor
  · rintro h ⟨id,v⟩ hp
    rw [mem_entries,h] at hp
    cases hp.2
  · intro h i
    cases hi : m.find i with
    | none => rfl
    | some v => exact absurd ((m.mem_entries (Id.fromLong ⟨i,true⟩) v).mpr ⟨rfl,hi⟩) (h _)

theorem represents_ofWrites [JsValue T] {ws : List (Write T)} (hu : ∀ w ∈ ws, w.id.Unsigned) :
    (ofWrites ws).Represents ws where
  pruned := (ofWrites ws).pruned
  get key hkey := by
    rw [find_eq_get,find_ofWrites_unsigned hu hkey]
    cases Write.last ws key with
    | none => rfl
    | some w => cases w <;> rfl
  once := (ofWrites ws).entries_keys_nodup
  entries := mem_entries_ofWrites hu
  forEach := (ofWrites ws).forEach_entries
  empty := by
    rw [entries_eq_nil_iff,List.eq_nil_iff_forall_not_mem,Prod.forall]
    simp only [mem_entries_ofWrites hu,ne_eq]

end IdMap

namespace IdSet

def write (s : IdSet) : Write Unit → IdSet
  | .set value _ => s.set value
  | .delete value => s.delete value

def ofWrites (ws : List (Write Unit)) : IdSet := ws.foldl write new

theorem inner_ofWrites (ws : List (Write Unit)) : (ofWrites ws).inner = IdMap.ofWrites ws := by
  induction ws using List.reverseRecOn with
  | nil => rfl
  | append_singleton ws w ih =>
    rw [ofWrites,List.foldl_append,IdMap.ofWrites,List.foldl_append]
    change (write (ofWrites ws) w).inner = (IdMap.ofWrites ws).write w
    rw [← ih]
    cases w <;> rfl

theorem forEach_values (s : IdSet) : s.forEach (fun value (seen : List Id) => seen ++ [value]) [] = s.values :=
  s.inner.forEach_collects (fun _ key => key)

structure Represents (s : IdSet) (ws : List (Write Unit)) : Prop where
  has : ∀ value : Id, value.Unsigned → (s.has value = true ↔ Write.last ws value = some (.set value ()))
  empty : s.empty = true ↔ ∀ value, Write.last ws value ≠ some (.set value ())
  once : s.values.Nodup
  values : ∀ value, value ∈ s.values ↔ Write.last ws value = some (.set value ())
  forEach : s.forEach (fun value (seen : List Id) => seen ++ [value]) [] = s.values

theorem represents_ofWrites {ws : List (Write Unit)} (hu : ∀ w ∈ ws, w.id.Unsigned) : (ofWrites ws).Represents ws where
  has value hvalue := by
    rw [has,inner_ofWrites,IdMap.find_eq_get,IdMap.find_ofWrites_unsigned hu hvalue,Write.last_set_iff]
    cases (Write.last ws value).bind Write.value with
    | none => simp
    | some v => exact iff_of_true rfl rfl
  empty := by
    rw [empty,inner_ofWrites,(IdMap.represents_ofWrites hu).empty]
    exact ⟨fun h value => h value (),fun h value _ => h value⟩
  once := (ofWrites ws).values_nodup
  values value := by
    rw [values,inner_ofWrites,List.mem_map]
    simp only [Prod.exists,IdMap.mem_entries_ofWrites hu]
    constructor
    · rintro ⟨_,_,h,rfl⟩
      exact h
    · exact fun h => ⟨value,(),h,rfl⟩
  forEach := (ofWrites ws).forEach_values

end IdSet

theorem id_containers_refine_writes :
    (∀ {T : Type} [JsValue T] (ws : List (Write T)), (∀ w ∈ ws, w.id.Unsigned) → (IdMap.ofWrites ws).Represents ws) ∧
    ∀ ws : List (Write Unit), (∀ w ∈ ws, w.id.Unsigned) → (IdSet.ofWrites ws).Represents ws :=
  ⟨fun _ hu => IdMap.represents_ofWrites hu,fun _ hu => IdSet.represents_ofWrites hu⟩

def topWrites : List (Write ℕ) :=
  [.set (Id.fromLong ⟨BitVec.allOnes 64,true⟩) 5,.set (Id.fromLong ⟨1,true⟩) 6,
    .delete (Id.fromLong ⟨1,true⟩),.set (Id.fromLong ⟨BitVec.allOnes 64,true⟩) 7]

theorem top_id_read_back : (IdMap.ofWrites topWrites).Represents topWrites :=
  id_containers_refine_writes.1 topWrites (by decide)

end ComposableIndexes
