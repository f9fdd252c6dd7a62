import ComposableIndexes.Library.PartialMap
import ComposableIndexes.Model.Update

namespace ComposableIndexes

abbrev Contents (A : Type) := PartialMap (BitVec 64) A

namespace Update

variable {A B : Type}

def ValidAt (S : Contents A) : Update A → Prop
  | .add id _ => S id.bits = none
  | .update id oldValue _ => S id.bits = some oldValue
  | .delete id oldValue => S id.bits = some oldValue

def apply (u : Update A) (S : Contents A) : Contents A :=
  match u with
  | .add id value => S.set id.bits value
  | .update id _ newValue => S.set id.bits newValue
  | .delete id _ => S.erase id.bits

theorem apply_of_ne (u : Update A) (S : Contents A) {i : BitVec 64} (h : i ≠ u.id.bits) :
    u.apply S i = S i := by
  cases u <;> simp_all [apply,Update.id,PartialMap.set_apply,PartialMap.erase_apply]

theorem valid_filterMap {f : A → Option B} {S : Contents A} {u : Update A} {w : Update B}
    (hu : u.ValidAt S) (h : filterMapUpdate f u = some w) : w.ValidAt (S.filterMap f) := by
  cases u <;> simp only [filterMapUpdate] at h <;> split at h <;> cases h <;>
    simp_all [ValidAt]

theorem apply_filterMap {f : A → Option B} {S : Contents A} {u : Update A} {w : Update B}
    (hu : u.ValidAt S) (h : filterMapUpdate f u = some w) :
    w.apply (S.filterMap f) = (u.apply S).filterMap f := by
  cases u with
  | add id v =>
    simp only [filterMapUpdate] at h
    split at h <;> cases h
    exact (PartialMap.filterMap_set_some f S id.bits ‹_›).symm
  | update id v v' =>
    simp only [filterMapUpdate] at h
    split at h <;> cases h
    · exact (PartialMap.filterMap_set_some f S id.bits ‹_›).symm
    · exact (PartialMap.filterMap_set_none f S id.bits ‹_›).symm
    · exact (PartialMap.filterMap_set_some f S id.bits ‹_›).symm
  | delete id v =>
    simp only [filterMapUpdate] at h
    split at h <;> cases h
    exact (PartialMap.filterMap_erase f S id.bits).symm

theorem apply_filterMap_of_none {f : A → Option B} {S : Contents A} {u : Update A}
    (hu : u.ValidAt S) (h : filterMapUpdate f u = none) :
    (u.apply S).filterMap f = S.filterMap f := by
  have hS : S.filterMap f u.id.bits = none := by
    cases u <;> simp only [filterMapUpdate] at h <;> split at h <;> cases h <;>
      simp_all [ValidAt,Update.id]
  have hu' : (u.apply S).filterMap f u.id.bits = none := by
    cases u <;> simp only [filterMapUpdate] at h <;> split at h <;> cases h <;>
      simp_all [ValidAt,Update.id,apply]
  funext i
  by_cases hi : i = u.id.bits
  · rw [hi,hS,hu']
  · simp [apply_of_ne u S hi]

end Update

def ValidLog {A : Type} : Contents A → List (Update A) → Contents A → Prop
  | S, [], R => S = R
  | S, u :: us, R => u.ValidAt S ∧ ValidLog (u.apply S) us R

namespace ValidLog

variable {A B : Type}

theorem append {S R Q : Contents A} {us ws : List (Update A)} (h : ValidLog S us R)
    (h' : ValidLog R ws Q) : ValidLog S (us ++ ws) Q := by
  induction us generalizing S with
  | nil =>
    cases h
    exact h'
  | cons u us ih => exact ⟨h.1,ih h.2⟩

theorem snoc {S R : Contents A} {us : List (Update A)} {u : Update A} (h : ValidLog S us R)
    (hu : u.ValidAt R) : ValidLog S (us ++ [u]) (u.apply R) :=
  h.append ⟨hu,rfl⟩

theorem filterMap (f : A → Option B) {S R : Contents A} {us : List (Update A)} (h : ValidLog S us R) :
    ValidLog (S.filterMap f) (us.filterMap (filterMapUpdate f)) (R.filterMap f) := by
  induction us generalizing S with
  | nil =>
    cases h
    rfl
  | cons u us ih =>
    have hus := ih h.2
    cases hw : filterMapUpdate f u with
    | none =>
      rw [List.filterMap_cons_none hw]
      rwa [Update.apply_filterMap_of_none h.1 hw] at hus
    | some w =>
      rw [List.filterMap_cons_some hw]
      refine ⟨Update.valid_filterMap h.1 hw,?_⟩
      rwa [Update.apply_filterMap h.1 hw]

end ValidLog

end ComposableIndexes
