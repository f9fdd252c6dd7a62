import ComposableIndexes.Library.PartialMap

-- The buckets of a relation: the points of `ι` under every key they have.
structure Cover {ι K : Type*} (V : ι → Set K) (look : K → Option (Set ι)) : Prop where
  nonempty : ∀ k X, look k = some X → X.Nonempty
  mem : ∀ k i, (∃ X, look k = some X ∧ i ∈ X) ↔ k ∈ V i

namespace Cover

variable {ι K : Type*} {V V' : ι → Set K} {look look' : K → Option (Set ι)}

theorem empty : Cover (fun _ : ι => (∅ : Set K)) (fun _ => none) :=
  ⟨by simp,by simp⟩

theorem exists_bucket (h : Cover V look) {i : ι} {k : K} (hi : k ∈ V i) : ∃ X, look k = some X ∧ i ∈ X :=
  (h.mem k i).mpr hi

theorem mem_bucket (h : Cover V look) {k : K} {X : Set ι} (hk : look k = some X) (i : ι) : i ∈ X ↔ k ∈ V i := by
  rw [← h.mem]
  constructor
  · exact fun hi => ⟨X,hk,hi⟩
  · rintro ⟨Y,hY,hi⟩
    rw [hk] at hY
    cases hY
    exact hi

theorem isSome_iff (h : Cover V look) (k : K) : (look k).isSome = true ↔ ∃ i, k ∈ V i := by
  constructor
  · intro hk
    obtain ⟨X,hX⟩ := Option.isSome_iff_exists.mp hk
    obtain ⟨i,hi⟩ := h.nonempty k X hX
    exact ⟨i,(h.mem k i).mp ⟨X,hX,hi⟩⟩
  · rintro ⟨i,hi⟩
    obtain ⟨X,hX,_⟩ := h.exists_bucket hi
    simp [hX]

theorem unique (h : Cover V look) (h' : Cover V look') : look = look' := by
  funext k
  cases hk : look k with
  | none =>
    cases hk' : look' k with
    | none => rfl
    | some X =>
      have := (h.isSome_iff k).mpr ((h'.isSome_iff k).mp (by simp [hk']))
      simp [hk] at this
  | some X =>
    obtain ⟨i,hi⟩ := h.nonempty k X hk
    obtain ⟨Y,hY,_⟩ := h'.exists_bucket ((h.mem_bucket hk i).mp hi)
    rw [hY]
    congr 1
    ext j
    rw [h.mem_bucket hk,h'.mem_bucket hY]

theorem rename (h : Cover V look) (σ : Equiv.Perm ι) (hV : ∀ i, V' (σ i) = V i) :
    Cover V' (fun k => (look k).map (fun X => σ '' X)) := by
  refine ⟨?_,?_⟩
  · intro k X hX
    obtain ⟨Y,hY,rfl⟩ := Option.map_eq_some_iff.mp hX
    exact (h.nonempty k Y hY).image σ
  · intro k i
    obtain ⟨j,rfl⟩ := σ.surjective i
    rw [hV,← h.mem]
    cases look k <;> simp

theorem change_at (h : Cover V look) (k : K) (hne : ∀ k', k' ≠ k → look' k' = look k')
    (hV : ∀ k' j, k' ≠ k → (k' ∈ V' j ↔ k' ∈ V j)) (hnonempty : ∀ X, look' k = some X → X.Nonempty)
    (hmem : ∀ j, (∃ X, look' k = some X ∧ j ∈ X) ↔ k ∈ V' j) : Cover V' look' := by
  refine ⟨?_,?_⟩
  · intro k' X hX
    by_cases hkk : k' = k
    · rw [hkk] at hX
      exact hnonempty X hX
    · rw [hne k' hkk] at hX
      exact h.nonempty k' X hX
  · intro k' j
    by_cases hkk : k' = k
    · rw [hkk]
      exact hmem j
    · rw [hne k' hkk,hV k' j hkk]
      exact h.mem k' j

variable [DecidableEq ι]

theorem insert_point (h : Cover V look) (i : ι) (k : K) (hk : look' k = some (insert i ((look k).getD ∅)))
    (hne : ∀ k', k' ≠ k → look' k' = look k') : Cover (Function.update V i (insert k (V i))) look' := by
  have hV (k' : K) (j : ι) : k' ∈ Function.update V i (insert k (V i)) j ↔ (j = i ∧ k' = k) ∨ k' ∈ V j := by
    rw [Function.update_apply]
    split_ifs with hj
    · rw [hj,Set.mem_insert_iff,and_iff_right rfl]
    · simp [hj]
  refine h.change_at k hne ?_ ?_ ?_
  · intro k' j hkk
    simp [hV,hkk]
  · intro X hX
    rw [hk] at hX
    cases hX
    exact ⟨i,Set.mem_insert i _⟩
  · intro j
    have hmem : j ∈ (look k).getD ∅ ↔ k ∈ V j := by
      rw [← h.mem]
      cases look k <;> simp
    simp [hV,hk,hmem]

theorem erase_point (h : Cover V look) {i : ι} {k : K} (hi : k ∈ V i)
    (hmem : ∀ X, look' k = some X → ∀ Y, look k = some Y → X = Y \ {i} ∧ X.Nonempty)
    (hnone : look' k = none → ∀ Y, look k = some Y → Y \ {i} = ∅)
    (hne : ∀ k', k' ≠ k → look' k' = look k') : Cover (Function.update V i (V i \ {k})) look' := by
  have hV (k' : K) (j : ι) : k' ∈ Function.update V i (V i \ {k}) j ↔ k' ∈ V j ∧ ¬(j = i ∧ k' = k) := by
    rw [Function.update_apply]
    split_ifs with hj
    · simp [hj]
    · simp [hj]
  obtain ⟨Y,hY,_⟩ := h.exists_bucket hi
  refine h.change_at k hne ?_ ?_ ?_
  · intro k' j hkk
    simp [hV,hkk]
  · intro X hX
    exact (hmem X hX Y hY).2
  · intro j
    have hj : j ∈ Y \ {i} ↔ k ∈ V j ∧ ¬(j = i ∧ k = k) := by
      simp [h.mem_bucket hY]
    rw [hV,← hj]
    cases hX : look' k with
    | none => simp [hnone hX Y hY]
    | some X => simp [(hmem X hX Y hY).1]

end Cover

structure Buckets {ι K : Type*} (S : PartialMap ι K) (look : K → Option (Set ι)) : Prop where
  nonempty : ∀ k X, look k = some X → X.Nonempty
  mem : ∀ k i, (∃ X, look k = some X ∧ i ∈ X) ↔ S i = some k

namespace Buckets

variable {ι K : Type*} {S : PartialMap ι K} {look look' : K → Option (Set ι)}

theorem iff_cover : Buckets S look ↔ Cover (fun i => {k | S i = some k}) look :=
  ⟨fun h => ⟨h.nonempty,h.mem⟩,fun h => ⟨h.nonempty,h.mem⟩⟩

theorem cover (h : Buckets S look) : Cover (fun i => {k | S i = some k}) look := iff_cover.mp h

theorem empty : Buckets (PartialMap.empty : PartialMap ι K) (fun _ => none) :=
  ⟨by simp,by simp⟩

theorem exists_bucket (h : Buckets S look) {i : ι} {k : K} (hi : S i = some k) :
    ∃ X, look k = some X ∧ i ∈ X := (h.mem k i).mpr hi

theorem mem_bucket (h : Buckets S look) {k : K} {X : Set ι} (hk : look k = some X) (i : ι) :
    i ∈ X ↔ S i = some k := h.cover.mem_bucket hk i

theorem isSome_iff (h : Buckets S look) (k : K) : (look k).isSome = true ↔ ∃ i, S i = some k := h.cover.isSome_iff k

theorem unique (h : Buckets S look) (h' : Buckets S look') : look = look' := h.cover.unique h'.cover

variable [DecidableEq ι]

theorem insert_point (h : Buckets S look) {i : ι} (hi : S i = none) (k : K)
    (hk : look' k = some (insert i ((look k).getD ∅))) (hne : ∀ k', k' ≠ k → look' k' = look k') :
    Buckets (S.set i k) look' := by
  have hV : Function.update (fun i => {k | S i = some k}) i (insert k {k | S i = some k}) =
      fun j => {k' | S.set i k j = some k'} := by
    funext j
    ext k'
    by_cases hj : j = i
    · simp [hj,hi,eq_comm]
    · simp [hj,PartialMap.set_apply]
  have hc := h.cover.insert_point i k hk hne
  rw [hV] at hc
  exact iff_cover.mpr hc

theorem erase_point (h : Buckets S look) {i : ι} {k : K} (hi : S i = some k)
    (hmem : ∀ X, look' k = some X → ∀ Y, look k = some Y → X = Y \ {i} ∧ X.Nonempty)
    (hnone : look' k = none → ∀ Y, look k = some Y → Y \ {i} = ∅)
    (hne : ∀ k', k' ≠ k → look' k' = look k') : Buckets (S.erase i) look' := by
  have hV : Function.update (fun i => {k | S i = some k}) i ({k | S i = some k} \ {k}) =
      fun j => {k' | S.erase i j = some k'} := by
    funext j
    ext k'
    by_cases hj : j = i
    · simp [hj,hi]
    · simp [hj,PartialMap.erase_apply]
  have hc := h.cover.erase_point hi hmem hnone hne
  rw [hV] at hc
  exact iff_cover.mpr hc

end Buckets
