import ComposableIndexes.Library.Procedure
import Mathlib.Data.List.Nodup

structure OrderedMap (K V : Type*) where
  entries : List (K × V)
  nodupKeys : (entries.map Prod.fst).Nodup

namespace OrderedMap

variable {K V : Type*}

@[ext] theorem ext {m n : OrderedMap K V} (h : m.entries = n.entries) : m = n := by
  cases m
  cases n
  cases h
  rfl

def empty : OrderedMap K V := ⟨[],by simp⟩

def size (m : OrderedMap K V) : ℕ := m.entries.length

def keys (m : OrderedMap K V) : List K := m.entries.map Prod.fst

theorem eq_of_mem_entries (m : OrderedMap K V) {k : K} {v w : V}
    (hv : (k,v) ∈ m.entries) (hw : (k,w) ∈ m.entries) : v = w := by
  have h := List.inj_on_of_nodup_map m.nodupKeys hv hw rfl
  exact congrArg Prod.snd h

variable [DecidableEq K]

def get (m : OrderedMap K V) (k : K) : Option V :=
  (m.entries.find? (fun p => p.1 = k)).map Prod.snd

def has (m : OrderedMap K V) (k : K) : Bool := (m.get k).isSome

theorem map_replace_keys (xs : List (K × V)) (k : K) (v : V) :
    (xs.map (fun p => if p.1 = k then (k,v) else p)).map Prod.fst = xs.map Prod.fst := by
  induction xs with
  | nil => rfl
  | cons p xs ih =>
    by_cases h : p.1 = k <;> simp [h,← ih]

theorem get_isSome_iff (m : OrderedMap K V) (k : K) : (m.get k).isSome = true ↔ k ∈ m.keys := by
  simp [get,keys]

theorem get_eq_none_iff (m : OrderedMap K V) (k : K) : m.get k = none ↔ k ∉ m.keys := by
  rw [← get_isSome_iff]
  simp

def set (m : OrderedMap K V) (k : K) (v : V) : OrderedMap K V :=
  if h : m.has k = true then
    ⟨m.entries.map (fun p => if p.1 = k then (k,v) else p),by
      rw [map_replace_keys]
      exact m.nodupKeys⟩
  else
    ⟨m.entries ++ [(k,v)],by
      have hk : k ∉ m.keys := by rwa [has,get_isSome_iff] at h
      rw [List.map_append,List.nodup_append]
      refine ⟨m.nodupKeys,by simp,?_⟩
      intro a ha b hb hab
      simp only [List.map_cons,List.map_nil,List.mem_singleton] at hb
      exact hk (hb ▸ hab ▸ ha)⟩

def delete (m : OrderedMap K V) (k : K) : OrderedMap K V :=
  ⟨m.entries.filter (fun p => p.1 ≠ k),
    (List.filter_sublist.map Prod.fst).nodup m.nodupKeys⟩

theorem mem_entries (m : OrderedMap K V) (k : K) (v : V) :
    (k,v) ∈ m.entries ↔ m.get k = some v := by
  constructor
  · intro hv
    cases hf : m.entries.find? (fun p => p.1 = k) with
    | none =>
      have h := List.find?_eq_none.mp hf (k,v) hv
      simp at h
    | some p =>
      have hp := List.mem_of_find?_eq_some hf
      have hk : p.1 = k := by simpa using List.find?_some hf
      obtain ⟨k',w⟩ := p
      subst hk
      simp [get,hf,m.eq_of_mem_entries hv hp]
  · intro h
    simp only [get,Option.map_eq_some_iff] at h
    obtain ⟨p,hf,rfl⟩ := h
    have hk : p.1 = k := by simpa using List.find?_some hf
    have hp := List.mem_of_find?_eq_some hf
    rwa [← hk]

theorem mem_set (m : OrderedMap K V) (k k' : K) (v x : V) :
    (k',x) ∈ (m.set k v).entries ↔ if k' = k then x = v else (k',x) ∈ m.entries := by
  unfold set
  split_ifs with h hk hk
  · subst hk
    obtain ⟨w,hw⟩ := Option.isSome_iff_exists.mp h
    have hw' := (m.mem_entries k' w).mpr hw
    simp only [List.mem_map,Prod.exists]
    constructor
    · rintro ⟨a,b,_,hab⟩
      split_ifs at hab with ha
      · exact (congrArg Prod.snd hab).symm
      · exact absurd (congrArg Prod.fst hab) ha
    · rintro rfl
      exact ⟨k',w,hw',by simp⟩
  · simp only [List.mem_map,Prod.exists]
    constructor
    · rintro ⟨a,b,hab,he⟩
      split_ifs at he with ha
      · exact absurd (congrArg Prod.fst he).symm hk
      · exact he ▸ hab
    · intro hx
      exact ⟨k',x,hx,by simp [hk]⟩
  · subst hk
    have hn : ∀ y, (k',y) ∉ m.entries := by
      intro y hy
      exact h (by simp [has,(m.mem_entries k' y).mp hy])
    simp [hn]
  · simp [hk]

theorem mem_delete (m : OrderedMap K V) (k k' : K) (x : V) :
    (k',x) ∈ (m.delete k).entries ↔ k' ≠ k ∧ (k',x) ∈ m.entries := by
  simp [delete,and_comm]

@[simp] theorem get_empty (k : K) : (empty : OrderedMap K V).get k = none := rfl

@[simp] theorem has_eq (m : OrderedMap K V) (k : K) : m.has k = (m.get k).isSome := rfl

theorem get_set (m : OrderedMap K V) (k k' : K) (v : V) :
    (m.set k v).get k' = if k' = k then some v else m.get k' := by
  ext x
  rw [← mem_entries,mem_set]
  split_ifs with h
  · simp [eq_comm]
  · exact m.mem_entries k' x

@[simp] theorem get_set_self (m : OrderedMap K V) (k : K) (v : V) : (m.set k v).get k = some v := by
  simp [get_set]

theorem get_delete (m : OrderedMap K V) (k k' : K) :
    (m.delete k).get k' = if k' = k then none else m.get k' := by
  ext x
  rw [← mem_entries,mem_delete]
  split_ifs with h
  · simp [h]
  · simp [h,m.mem_entries k' x]

theorem set_of_get (m : OrderedMap K V) {k : K} {v : V} (h : m.get k = some v) : m.set k v = m := by
  have hh : m.has k = true := by simp [h]
  ext1
  rw [set,dif_pos hh]
  conv_rhs => rw [← List.map_id m.entries]
  apply List.map_congr_left
  rintro ⟨a,b⟩ hab
  by_cases ha : a = k
  · subst ha
    have hb : v = b := by
      have := (m.mem_entries a b).mp hab
      rw [h] at this
      exact Option.some.inj this
    simp [hb]
  · simp [ha]

theorem size_eq_zero_iff (m : OrderedMap K V) : m.size = 0 ↔ ∀ k, m.get k = none := by
  constructor
  · intro h k
    rw [get_eq_none_iff,keys,List.length_eq_zero_iff.mp h]
    simp
  · intro h
    rw [size,List.length_eq_zero_iff,List.eq_nil_iff_forall_not_mem]
    rintro ⟨k,v⟩ hv
    have := (m.mem_entries k v).mp hv
    rw [h k] at this
    cases this

theorem size_eq_of_isSome_eq {W : Type*} {m : OrderedMap K V} {n : OrderedMap K W}
    (h : ∀ k, (m.get k).isSome = (n.get k).isSome) : m.size = n.size := by
  have hp : m.keys.Perm n.keys := by
    apply (List.perm_ext_iff_of_nodup m.nodupKeys n.nodupKeys).mpr
    intro k
    change k ∈ m.keys ↔ k ∈ n.keys
    rw [← get_isSome_iff,← get_isSome_iff,h]
  simpa [size,keys] using hp.length_eq

theorem entries_set_of_get_none {m : OrderedMap K V} {k : K} (h : m.get k = none) (v : V) :
    (m.set k v).entries = m.entries ++ [(k,v)] := by
  rw [set,dif_neg (by simp [h])]

theorem keys_set_of_has {m : OrderedMap K V} {k : K} (h : m.has k = true) (v : V) : (m.set k v).keys = m.keys := by
  rw [set,dif_pos h]
  exact map_replace_keys m.entries k v

theorem keys_delete (m : OrderedMap K V) (k : K) : (m.delete k).keys = m.keys.filter (fun k' => k' ≠ k) := by
  simp only [keys,delete,List.filter_map]
  rfl

-- The keys a live iterator of the map still has to visit: a new key is placed last, a present key keeps
-- its place, a deleted key is not visited.
def pendingSet (m : OrderedMap K V) (k : K) (pending : List K) : List K :=
  if m.has k then pending else pending ++ [k]

def pendingDelete (k : K) (pending : List K) : List K := pending.filter (fun k' => k' ≠ k)

theorem mem_pendingSet {m : OrderedMap K V} {k k' : K} {pending : List K} (h : k' ∈ m.pendingSet k pending)
    (hne : k' ≠ k) : k' ∈ pending := by
  unfold pendingSet at h
  split_ifs at h
  · exact h
  · simpa [hne] using h

variable {ε : Type*} {α : Type*}

def atKey (missing : ε) (k : K) (x : Procedure ε V α) : Procedure ε (OrderedMap K V) α := fun m =>
  match m.get k with
  | none => .thrown missing m
  | some v => (x v).mapState (fun v' => m.set k v')

def All (I : V → Prop) (m : OrderedMap K V) : Prop := ∀ k v, m.get k = some v → I v

section All

variable {I : V → Prop} {m : OrderedMap K V} {k : K} {v : V}

theorem all_empty : All I (empty : OrderedMap K V) := by simp [All]

theorem All.set (h : All I m) (hv : I v) : All I (m.set k v) := by
  intro k' v' hg
  rw [get_set] at hg
  split_ifs at hg
  · cases hg
    exact hv
  · exact h k' v' hg

theorem All.delete (h : All I m) : All I (m.delete k) := by
  intro k' v' hg
  rw [get_delete] at hg
  split_ifs at hg
  exact h k' v' hg

theorem All.atKey {E : ε → Prop} {A : α → Prop} {missing : ε} {x : Procedure ε V α} (hm : E missing)
    (hx : Procedure.Keeps I E A x) : Procedure.Keeps (All I) E A (atKey missing k x) := by
  intro m h
  unfold OrderedMap.atKey
  cases hg : m.get k with
  | none => exact .thrown hm h
  | some v => exact (hx v (h k v hg)).mapState (fun _ hs => h.set hs)

end All

end OrderedMap
