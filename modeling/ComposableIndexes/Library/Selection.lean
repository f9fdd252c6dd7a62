import ComposableIndexes.Library.OrderedMap

namespace OrderedMap

variable {K K' V : Type*} {p : K → Prop} [DecidablePred p] {f : K → K'} {m : OrderedMap K V} {m' : OrderedMap K' V} {k : K}

-- `m'` has the entries of `m` whose keys satisfy `p`, in their order, each under the name `f` gives its key.
def Selects (p : K → Prop) [DecidablePred p] (f : K → K') (m : OrderedMap K V) (m' : OrderedMap K' V) : Prop :=
  m'.entries = (m.entries.filter (fun q => p q.1)).map (fun q => (f q.1,q.2))

def InjectiveWhere (p : K → Prop) (f : K → K') : Prop := ∀ a b, p a → p b → f a = f b → a = b

theorem selects_empty : Selects p f (empty : OrderedMap K V) empty := rfl

variable [DecidableEq K] [DecidableEq K']

theorem entries_set_of_has {m : OrderedMap K V} (h : m.has k = true) (v : V) :
    (m.set k v).entries = m.entries.map (fun q => if q.1 = k then (k,v) else q) := by
  rw [set,dif_pos h]

namespace Selects

theorem get (h : Selects p f m m') (hf : InjectiveWhere p f) (hk : p k) : m'.get (f k) = m.get k := by
  ext v
  rw [← mem_entries,← mem_entries,h,List.mem_map]
  constructor
  · rintro ⟨⟨a,w⟩,hm,he⟩
    obtain ⟨hm,hp⟩ := List.mem_filter.mp hm
    obtain ⟨ha,rfl⟩ := Prod.mk.inj he
    obtain rfl : a = k := hf a k (of_decide_eq_true hp) hk ha
    exact hm
  · intro hm
    exact ⟨(k,v),List.mem_filter.mpr ⟨hm,decide_eq_true hk⟩,rfl⟩

theorem has (h : Selects p f m m') (hf : InjectiveWhere p f) (hk : p k) : m'.has (f k) = m.has k := by
  rw [has_eq,has_eq,h.get hf hk]

theorem filter_set_of_has (h : m.has k = true) (v : V) : (m.set k v).entries.filter (fun q => p q.1) =
    (m.entries.filter (fun q => p q.1)).map (fun q => if q.1 = k then (k,v) else q) := by
  rw [entries_set_of_has h,List.filter_map]
  refine congrArg _ (List.filter_congr ?_)
  intro q _
  rw [Function.comp_apply]
  split_ifs with hq
  · rw [← hq]
  · rfl

theorem set_in (h : Selects p f m m') (hf : InjectiveWhere p f) (hk : p k) (v : V) :
    Selects p f (m.set k v) (m'.set (f k) v) := by
  unfold Selects
  cases hm : m.has k with
  | true =>
    rw [filter_set_of_has hm,entries_set_of_has ((h.has hf hk).trans hm),h,List.map_map,List.map_map]
    refine List.map_congr_left ?_
    intro q hq
    have hp : p q.1 := of_decide_eq_true (List.mem_filter.mp hq).2
    have hiff : f q.1 = f k ↔ q.1 = k := ⟨fun he => hf q.1 k hp hk he,fun he => congrArg f he⟩
    by_cases he : q.1 = k <;> simp [hiff,he]
  | false =>
    have hnone : m.get k = none := by simpa using hm
    rw [entries_set_of_get_none hnone,entries_set_of_get_none ((h.get hf hk).trans hnone),h]
    simp [hk]

omit [DecidableEq K'] in
theorem set_out (h : Selects p f m m') (hk : ¬p k) (v : V) : Selects p f (m.set k v) m' := by
  refine h.trans (congrArg _ ?_)
  cases hm : m.has k with
  | true =>
    rw [filter_set_of_has hm]
    conv_lhs => rw [← List.map_id (m.entries.filter (fun q => p q.1))]
    refine List.map_congr_left ?_
    intro q hq
    have hp : p q.1 := of_decide_eq_true (List.mem_filter.mp hq).2
    have hne : q.1 ≠ k := fun he => hk (he ▸ hp)
    rw [if_neg hne,id]
  | false =>
    have hnone : m.get k = none := by simpa using hm
    rw [entries_set_of_get_none hnone]
    simp [hk]

theorem delete_in (h : Selects p f m m') (hf : InjectiveWhere p f) (hk : p k) : Selects p f (m.delete k) (m'.delete (f k)) := by
  unfold Selects at h ⊢
  rw [delete,delete]
  simp only [h,List.filter_map,List.filter_filter]
  refine congrArg _ (List.filter_congr ?_)
  intro q _
  have hiff (hp : p q.1) : f q.1 = f k ↔ q.1 = k := ⟨fun he => hf q.1 k hp hk he,fun he => congrArg f he⟩
  by_cases hp : p q.1
  · simp [hp,hiff hp]
  · simp [hp]

omit [DecidableEq K'] in
theorem delete_out (h : Selects p f m m') (hk : ¬p k) : Selects p f (m.delete k) m' := by
  refine h.trans (congrArg _ ?_)
  rw [delete]
  simp only [List.filter_filter]
  refine List.filter_congr ?_
  intro q _
  by_cases hp : p q.1
  · have hne : q.1 ≠ k := fun he => hk (he ▸ hp)
    simp [hp,hne]
  · simp [hp]

end Selects

theorem flatMap_at_key {β : Type*} (m : OrderedMap K V) (k : K) (g : K → V → List β) :
    m.entries.flatMap (fun q => if q.1 = k then g q.1 q.2 else []) = (m.get k).elim [] (g k) := by
  obtain ⟨xs,hn⟩ := m
  rw [OrderedMap.get]
  simp only
  induction xs with
  | nil => rfl
  | cons q xs ih =>
    obtain ⟨hq,hxs⟩ := List.nodup_cons.mp hn
    rw [List.flatMap_cons]
    by_cases hk : q.1 = k
    · have hrest : xs.flatMap (fun q => if q.1 = k then g q.1 q.2 else []) = [] := by
        rw [List.flatMap_eq_nil_iff]
        intro q' hq'
        have hne : q'.1 ≠ k := fun he => hq ((hk.trans he.symm) ▸ List.mem_map_of_mem hq')
        rw [if_neg hne]
      rw [hrest,if_pos hk,List.append_nil,List.find?_cons_of_pos (by simp [hk]),hk]
      rfl
    · rw [if_neg hk,List.nil_append,ih hxs,List.find?_cons_of_neg (by simp [hk])]

end OrderedMap
