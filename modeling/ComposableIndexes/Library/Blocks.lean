import Mathlib.Tactic
import Mathlib.Data.List.Dedup
import Mathlib.Data.Set.Card

namespace List

section Blocks

variable {α β : Type*} {f : α → List β}

theorem length_le_flatMap {xs : List α} (hf : ∀ a ∈ xs, 1 ≤ (f a).length) : xs.length ≤ (xs.flatMap f).length := by
  induction xs with
  | nil => simp
  | cons a xs ih =>
    have ha := hf a (by simp)
    have hxs := ih (fun b hb => hf b (by simp [hb]))
    simp only [flatMap_cons,length_cons,length_append]
    omega

theorem flatMap_take_prefix (xs : List α) (n : ℕ) :
    (xs.take n).flatMap f = (xs.flatMap f).take ((xs.take n).flatMap f).length := by
  conv_rhs => rw [← take_append_drop n xs,flatMap_append]
  simp

theorem flatMap_take_length_iff {xs : List α} (hf : ∀ a ∈ xs, 1 ≤ (f a).length) (n : ℕ) :
    ((xs.take n).flatMap f).length = min n (xs.flatMap f).length ↔
      (xs.flatMap f).length ≤ n ∨ ∀ a ∈ xs.take n, (f a).length = 1 := by
  induction xs generalizing n with
  | nil => simp
  | cons a xs ih =>
    cases n with
    | zero => simp
    | succ n =>
      have ha := hf a (by simp)
      have hxs : ∀ b ∈ xs, 1 ≤ (f b).length := fun b hb => hf b (by simp [hb])
      have htake : (xs.take n).length ≤ ((xs.take n).flatMap f).length :=
        length_le_flatMap (fun b hb => hxs b (mem_of_mem_take hb))
      rw [length_take] at htake
      have hle := length_le_flatMap hxs
      simp only [take_succ_cons,flatMap_cons,length_append,forall_mem_cons]
      by_cases h1 : (f a).length = 1
      · rw [h1]
        have hi := ih hxs n
        simp only [true_and]
        constructor
        · intro h
          rcases hi.mp (by omega) with hm | hm
          · exact .inl (by omega)
          · exact .inr hm
        · intro h
          have := hi.mpr (h.imp (fun h => by omega) id)
          omega
      · simp only [h1,false_and,or_false]
        by_cases hn : xs.length ≤ n
        · rw [take_of_length_le hn]
          omega
        · omega

end Blocks

section Ranks

variable {α K : Type*} [LinearOrder K] {key : α → K}

theorem mem_take_iff_rank {xs : List α} (h : xs.Pairwise (fun a b => key a < key b)) {a : α} (ha : a ∈ xs) (n : ℕ) :
    a ∈ xs.take n ↔ (xs.filter (fun b => key b < key a)).length < n := by
  induction xs generalizing n with
  | nil => cases ha
  | cons b xs ih =>
    obtain ⟨hb,hxs⟩ := pairwise_cons.mp h
    cases n with
    | zero => simp
    | succ n =>
      rcases mem_cons.mp ha with rfl | ha'
      · have hnone : xs.filter (fun b => key b < key a) = [] := by
          rw [filter_eq_nil_iff]
          intro b hb'
          simpa using (hb b hb').le
        simp [hnone]
      · have hne : a ≠ b := by
          rintro rfl
          exact lt_irrefl _ (hb a ha')
        have hlt := hb a ha'
        simp [hlt,hne,ih hxs ha' n]

end Ranks

theorem Nodup.length_eq_ncard {α : Type*} {xs : List α} (h : xs.Nodup) {s : Set α} (hs : ∀ a, a ∈ xs ↔ a ∈ s) :
    xs.length = s.ncard := by
  classical
  have he : s = (xs.toFinset : Set α) := by
    ext a
    simp [hs a]
  rw [he,Set.ncard_coe_finset,toFinset_card_of_nodup h]

theorem Nodup.length_eq_dedup {α : Type*} [DecidableEq α] {xs ys : List α} (h : xs.Nodup)
    (hm : ∀ a, a ∈ xs ↔ a ∈ ys) : xs.length = ys.dedup.length := by
  refine ((perm_ext_iff_of_nodup h (nodup_dedup ys)).mpr ?_).length_eq
  intro a
  rw [hm,mem_dedup]

end List
