import Mathlib.Tactic
import Mathlib.Data.Multiset.Filter
import Mathlib.Data.Fintype.Card

abbrev PartialMap (ι α : Type*) := ι → Option α

namespace PartialMap

variable {ι α β : Type*}

def empty : PartialMap ι α := fun _ => none

def filterMap (f : α → Option β) (S : PartialMap ι α) : PartialMap ι β := fun i => (S i).bind f

def Sub (S R : PartialMap ι α) : Prop := ∀ i a, S i = some a → R i = some a

@[simp] theorem empty_apply (i : ι) : (empty : PartialMap ι α) i = none := rfl

@[simp] theorem filterMap_apply (f : α → Option β) (S : PartialMap ι α) (i : ι) :
    filterMap f S i = (S i).bind f := rfl

theorem isSome_of_filterMap {f : α → Option β} {S : PartialMap ι α} {i : ι}
    (h : (S.filterMap f i).isSome = true) : (S i).isSome = true := by
  cases hS : S i with
  | none => simp [hS] at h
  | some a => rfl

theorem Sub.filterMap {S R : PartialMap ι α} (h : Sub S R) (f : α → Option β) :
    Sub (filterMap f S) (filterMap f R) := by
  intro i b hb
  simp only [filterMap_apply,Option.bind_eq_some_iff] at hb ⊢
  obtain ⟨a,ha,hf⟩ := hb
  exact ⟨a,h i a ha,hf⟩

variable [DecidableEq ι]

def set (S : PartialMap ι α) (i : ι) (a : α) : PartialMap ι α := Function.update S i (some a)

def erase (S : PartialMap ι α) (i : ι) : PartialMap ι α := Function.update S i none

theorem set_apply (S : PartialMap ι α) (i j : ι) (a : α) :
    S.set i a j = if j = i then some a else S j := by
  simp [set,Function.update_apply]

theorem erase_apply (S : PartialMap ι α) (i j : ι) :
    S.erase i j = if j = i then none else S j := by
  simp [erase,Function.update_apply]

@[simp] theorem set_self (S : PartialMap ι α) (i : ι) (a : α) : S.set i a i = some a := by
  simp [set_apply]

@[simp] theorem erase_self (S : PartialMap ι α) (i : ι) : S.erase i i = none := by
  simp [erase_apply]

theorem erase_set (S : PartialMap ι α) (i : ι) (a : α) : (S.erase i).set i a = S.set i a := by
  funext j
  by_cases h : j = i <;> simp [set_apply,erase_apply,h]

theorem set_eq_self {S : PartialMap ι α} {i : ι} {a : α} (h : S i = some a) : S.set i a = S := by
  funext j
  by_cases hj : j = i
  · simp [hj,h]
  · simp [set_apply,hj]

theorem set_erase (S : PartialMap ι α) (i : ι) (a : α) : (S.set i a).erase i = S.erase i := by
  funext j
  by_cases h : j = i <;> simp [set_apply,erase_apply,h]

theorem erase_eq_self {S : PartialMap ι α} {i : ι} (h : S i = none) : S.erase i = S := by
  funext j
  by_cases hj : j = i
  · simp [hj,h]
  · simp [erase_apply,hj]

theorem filterMap_set_some (f : α → Option β) (S : PartialMap ι α) (i : ι) {a : α} {b : β}
    (h : f a = some b) : filterMap f (S.set i a) = (filterMap f S).set i b := by
  funext j
  by_cases hj : j = i <;> simp [set_apply,hj,h]

theorem filterMap_set_none (f : α → Option β) (S : PartialMap ι α) (i : ι) {a : α}
    (h : f a = none) : filterMap f (S.set i a) = (filterMap f S).erase i := by
  funext j
  by_cases hj : j = i <;> simp [set_apply,erase_apply,hj,h]

theorem filterMap_erase (f : α → Option β) (S : PartialMap ι α) (i : ι) :
    filterMap f (S.erase i) = (filterMap f S).erase i := by
  funext j
  by_cases hj : j = i <;> simp [erase_apply,hj]

theorem sub_erase (S : PartialMap ι α) (i : ι) : Sub (S.erase i) S := by
  intro j a h
  rw [erase_apply] at h
  split_ifs at h
  exact h

section Values

variable [Finite ι]

noncomputable def valuesOff (i : ι) (S : PartialMap ι α) : Multiset α :=
  letI := Fintype.ofFinite ι
  ((Finset.univ.erase i).val).filterMap S

omit [DecidableEq ι] in
noncomputable def values (S : PartialMap ι α) : Multiset α :=
  letI := Fintype.ofFinite ι
  (Finset.univ.val).filterMap S

omit [DecidableEq ι] [Finite ι] in
theorem filterMap_congr_mem {S R : PartialMap ι α} (s : Multiset ι) (h : ∀ j ∈ s, S j = R j) :
    s.filterMap S = s.filterMap R := by
  induction s using Quotient.inductionOn with
  | h l => exact congrArg Multiset.ofList (List.filterMap_congr h)

theorem valuesOff_congr {i : ι} {S R : PartialMap ι α} (h : ∀ j, j ≠ i → S j = R j) :
    valuesOff i S = valuesOff i R := by
  let _ := Fintype.ofFinite ι
  apply filterMap_congr_mem
  intro j hj
  exact h j (Finset.ne_of_mem_erase hj)

omit [Finite ι] in
theorem univ_val_eq_cons [Fintype ι] (i : ι) :
    (Finset.univ : Finset ι).val = i ::ₘ (Finset.univ.erase i).val := by
  rw [Finset.erase_val,Multiset.cons_erase (Finset.mem_univ i)]

theorem values_of_some {S : PartialMap ι α} {i : ι} {a : α} (h : S i = some a) :
    S.values = a ::ₘ valuesOff i S := by
  let _ := Fintype.ofFinite ι
  rw [values,univ_val_eq_cons i,Multiset.filterMap_cons_some S i _ h]
  rfl

theorem values_of_none {S : PartialMap ι α} {i : ι} (h : S i = none) :
    S.values = valuesOff i S := by
  let _ := Fintype.ofFinite ι
  rw [values,univ_val_eq_cons i,Multiset.filterMap_cons_none i _ h]
  rfl

omit [DecidableEq ι] in
theorem mem_values {S : PartialMap ι α} {a : α} : a ∈ S.values ↔ ∃ i, S i = some a := by
  let _ := Fintype.ofFinite ι
  simp [values,Multiset.mem_filterMap]

omit [DecidableEq ι] in
theorem values_empty : (empty : PartialMap ι α).values = 0 := by
  let _ := Fintype.ofFinite ι
  rw [values,Multiset.eq_zero_iff_forall_notMem]
  intro a ha
  rw [Multiset.mem_filterMap] at ha
  obtain ⟨i,_,h⟩ := ha
  cases h

theorem values_set_of_none {S : PartialMap ι α} {i : ι} (h : S i = none) (a : α) :
    (S.set i a).values = a ::ₘ S.values := by
  rw [values_of_some (S.set_self i a),values_of_none h]
  congr 1
  exact valuesOff_congr (fun j hj => by simp [set_apply,hj])

theorem values_of_erase {S : PartialMap ι α} {i : ι} {a : α} (h : S i = some a) :
    S.values = a ::ₘ (S.erase i).values := by
  rw [values_of_some h,values_of_none (S.erase_self i)]
  congr 1
  exact valuesOff_congr (fun j hj => by simp [erase_apply,hj])

theorem card_values_set {S : PartialMap ι α} {i : ι} {a : α} (h : S i = some a) (b : α) :
    Multiset.card (S.set i b).values = Multiset.card S.values := by
  rw [values_of_erase h,← S.erase_set i b,values_set_of_none (S.erase_self i),Multiset.card_cons,Multiset.card_cons]

omit [DecidableEq ι] [Finite ι] in
theorem map_eq_values (S : PartialMap ι α) (s : Multiset ι) :
    s.map S = (s.filterMap S).map some + Multiset.replicate (Multiset.card s - Multiset.card (s.filterMap S)) none := by
  induction s using Multiset.induction_on with
  | empty => simp
  | cons i s ih =>
    have hle : Multiset.card (s.filterMap S) ≤ Multiset.card s := by
      induction s using Quotient.inductionOn with
      | h l => exact List.length_filterMap_le S l
    cases hi : S i with
    | none =>
      rw [Multiset.map_cons,Multiset.filterMap_cons_none i s hi,ih,hi,Multiset.card_cons,Nat.succ_sub hle,
        Multiset.replicate_succ,Multiset.add_cons]
    | some a =>
      rw [Multiset.map_cons,Multiset.filterMap_cons_some S i s hi,Multiset.map_cons,ih,hi,Multiset.card_cons,
        Multiset.card_cons,Nat.succ_sub_succ,Multiset.cons_add]

omit [DecidableEq ι] in
theorem exists_rename {S R : PartialMap ι α} (h : S.values = R.values) :
    ∃ σ : Equiv.Perm ι, ∀ i, R (σ i) = S i := by
  classical
  let _ := Fintype.ofFinite ι
  have hmap : (Finset.univ : Finset ι).val.map S = Finset.univ.val.map R := by
    have hv : (Finset.univ : Finset ι).val.filterMap S = Finset.univ.val.filterMap R := h
    rw [map_eq_values S,map_eq_values R,hv]
  have hcount (Q : PartialMap ι α) (c : Option α) : Fintype.card {i // Q i = c} = (Finset.univ.val.map Q).count c := by
    rw [Fintype.card_subtype,Multiset.count_map]
    simp only [eq_comm]
    rfl
  have hfiber (c : Option α) : Nonempty ({i // S i = c} ≃ {i // R i = c}) := by
    rw [← Fintype.card_eq,hcount,hcount,hmap]
  exact ⟨Equiv.ofFiberEquiv (fun c => (hfiber c).some),fun i => Equiv.ofFiberEquiv_map _ i⟩
end Values

end PartialMap

namespace List

-- Of a list of writes the last one at `i`.
def lastOn {ι α : Type*} [DecidableEq ι] (key : α → ι) (ws : List α) (i : ι) : Option α :=
  ws.reverse.find? (fun w => key w = i)

section LastOn

variable {ι κ α β σ : Type*} [DecidableEq ι] [DecidableEq κ] {key : α → ι}

theorem lastOn_append (ws : List α) (w : α) (i : ι) :
    lastOn key (ws ++ [w]) i = if key w = i then some w else lastOn key ws i := by
  by_cases h : key w = i <;> simp [lastOn,h]

theorem lastOn_append_of_some {ws ws' : List α} {i : ι} {w : α} (h : lastOn key ws' i = some w) :
    lastOn key (ws ++ ws') i = some w := by
  rw [lastOn] at h
  rw [lastOn,reverse_append,find?_append,h]
  rfl

theorem key_of_lastOn {ws : List α} {i : ι} {w : α} (h : lastOn key ws i = some w) : key w = i := by
  simpa using find?_some h

theorem mem_of_lastOn {ws : List α} {i : ι} {w : α} (h : lastOn key ws i = some w) : w ∈ ws :=
  mem_reverse.mp (mem_of_find?_eq_some h)

theorem exists_lastOn {ws : List α} {i : ι} (h : ∃ w ∈ ws, key w = i) : ∃ w, lastOn key ws i = some w := by
  obtain ⟨w,hw,hk⟩ := h
  rw [lastOn,← Option.isSome_iff_exists,find?_isSome]
  exact ⟨w,mem_reverse.mpr hw,by simpa using hk⟩

theorem lastOn_congr {key' : α → κ} {ws : List α} {i : ι} {j : κ} (h : ∀ w ∈ ws, key w = i ↔ key' w = j) :
    lastOn key ws i = lastOn key' ws j := by
  induction ws using reverseRecOn with
  | nil => rfl
  | append_singleton ws w ih =>
    rw [lastOn_append,lastOn_append,ih (fun w' hw' => h w' (mem_append_left _ hw'))]
    simp only [h w (by simp)]

-- Where a write shows at its own key and leaves the others alone, the last write decides.
theorem foldl_lastOn {step : σ → α → σ} {view : σ → ι → β} {out : α → β}
    (h : ∀ s w i, view (step s w) i = if key w = i then out w else view s i) (s : σ) (ws : List α) (i : ι) :
    view (ws.foldl step s) i = (lastOn key ws i).elim (view s i) out := by
  induction ws using reverseRecOn with
  | nil => rfl
  | append_singleton ws w ih =>
    rw [foldl_append,foldl_cons,foldl_nil,h,lastOn_append,ih]
    split_ifs <;> rfl

end LastOn

end List

theorem Multiset.foldl_cons_last {α β : Type*} (f : β → α → β) [RightCommutative f] (b : β) (a : α)
    (s : Multiset α) : Multiset.foldl f b (a ::ₘ s) = f (Multiset.foldl f b s) a := by
  rw [← Multiset.singleton_add,add_comm,Multiset.foldl_add,← Multiset.cons_zero,
    Multiset.foldl_cons,Multiset.foldl_zero]
