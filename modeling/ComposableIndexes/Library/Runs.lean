import ComposableIndexes.Library.Procedure

section

variable {ε : Type*} {σ : Type*} {ι : Type*} (exec : ι → Procedure ε σ Unit) (ok : σ → ι → Prop) (init : σ)

inductive Reached : σ → Prop where
  | start : Reached init
  | step {s s' : σ} (i : ι) (h : Reached s) (hi : ok s i) (hs : exec i s = .returned () s') : Reached s'

inductive Visited : σ → Prop where
  | start : Visited init
  | step {s : σ} (i : ι) (h : Visited s) (hi : ok s i) : Visited (exec i s).state

end

section

variable {ε : Type*} {σ : Type*} {ι : Type*} {exec : ι → Procedure ε σ Unit} {ok ok' : σ → ι → Prop} {init : σ}

theorem Reached.invariant {I : σ → Prop} (start : I init)
    (step : ∀ s s' i, I s → ok s i → exec i s = .returned () s' → I s') {s : σ} (h : Reached exec ok init s) :
    I s := by
  induction h with
  | start => exact start
  | step i _ hi hs ih => exact step _ _ i ih hi hs

theorem Visited.invariant {I : σ → Prop} (start : I init)
    (step : ∀ s i, I s → ok s i → I (exec i s).state) {s : σ} (h : Visited exec ok init s) : I s := by
  induction h with
  | start => exact start
  | step i _ hi ih => exact step _ i ih hi

theorem Reached.weaken {I : σ → Prop} (start : I init)
    (step : ∀ s s' i, I s → ok s i → exec i s = .returned () s' → I s')
    (hok : ∀ s i, I s → ok s i → ok' s i) {s : σ} (h : Reached exec ok init s) : Reached exec ok' init s := by
  have hboth : I s ∧ Reached exec ok' init s := by
    refine h.invariant (I := fun s => I s ∧ Reached exec ok' init s) ⟨start,.start⟩ ?_
    intro s s' i hI hi hs
    exact ⟨step s s' i hI.1 hi hs,.step i hI.2 (hok s i hI.1 hi) hs⟩
  exact hboth.2

theorem Reached.mono (hok : ∀ s i, ok s i → ok' s i) {s : σ} (h : Reached exec ok init s) : Reached exec ok' init s :=
  h.weaken (I := fun _ => True) trivial (fun _ _ _ _ _ _ => trivial) (fun s i _ => hok s i)

theorem Reached.visited {s : σ} (h : Reached exec ok init s) : Visited exec ok init s := by
  refine h.invariant .start ?_
  intro s s' i hs hi he
  have hv := hs.step i hi
  rwa [he] at hv

end

namespace Outcome

variable {ε : Type*} {σ τ : Type*} {α β : Type*}

inductive Rel (A : α → β → Prop) (R : σ → τ → Prop) : Outcome ε σ α → Outcome ε τ β → Prop where
  | returned {a : α} {b : β} {s : σ} {t : τ} (ha : A a b) (hs : R s t) : Rel A R (.returned a s) (.returned b t)
  | thrown (e : ε) {s : σ} {t : τ} (hs : R s t) : Rel A R (.thrown e s) (.thrown e t)

theorem Rel.refl {A : α → α → Prop} (hA : ∀ a, A a a) (o : Outcome ε σ α) : Rel A Eq o o := by
  cases o with
  | returned a s => exact .returned (hA a) rfl
  | thrown e s => exact .thrown e rfl

theorem Rel.of_eq {A : α → β → Prop} {R : σ → τ → Prop} {o o₁ : Outcome ε σ α} {o' : Outcome ε τ β} (ho : o = o₁)
    (h : Rel A R o₁ o') : Rel A R o o' := by
  rw [ho]
  exact h

theorem Rel.mapState {A : α → β → Prop} {R : σ → τ → Prop} {σ' τ' : Type*} {R' : σ' → τ' → Prop} {f : σ → σ'}
    {g : τ → τ'} {o : Outcome ε σ α} {o' : Outcome ε τ β} (h : Rel A R o o')
    (hR : ∀ s t, R s t → R' (f s) (g t)) : Rel A R' (o.mapState f) (o'.mapState g) := by
  cases h with
  | returned ha hs => exact .returned ha (hR _ _ hs)
  | thrown e hs => exact .thrown e (hR _ _ hs)

end Outcome

namespace Procedure

universe v w

variable {ε : Type*} {σ τ : Type*} {ι : Type*}

def Lockstep {α β : Type*} (A : α → β → Prop) (R : σ → τ → Prop) (x : Procedure ε σ α) (y : Procedure ε τ β) : Prop :=
  ∀ s t, R s t → Outcome.Rel A R (x s) (y t)

theorem Lockstep.refl {α : Type*} (x : Procedure ε σ α) : Lockstep Eq Eq x x := by
  rintro s _ rfl
  exact Outcome.Rel.refl (fun _ => rfl) (x s)

theorem Lockstep.bind {α α' : Type v} {β β' : Type w} {A : α → β → Prop} {B : α' → β' → Prop} {R : σ → τ → Prop}
    {x : Procedure ε σ α} {y : Procedure ε τ β} {f : α → Procedure ε σ α'} {g : β → Procedure ε τ β'} (h : Lockstep A R x y)
    (hf : ∀ a b, A a b → Lockstep B R (f a) (g b)) : Lockstep B R (x >>= f) (y >>= g) := by
  intro s t hst
  have hxy := h s t hst
  rw [bind_apply,bind_apply]
  cases hxs : x s with
  | returned a s' =>
    rw [hxs] at hxy
    generalize y t = o at hxy
    cases hxy with
    | returned ha hs => exact hf _ _ ha _ _ hs
  | thrown e s' =>
    rw [hxs] at hxy
    generalize y t = o at hxy
    cases hxy with
    | thrown _ hs => exact .thrown e hs

theorem Lockstep.pure {α : Type v} {β : Type w} {A : α → β → Prop} {R : σ → τ → Prop} {a : α} {b : β} (h : A a b) :
    Lockstep A R (pure a : Procedure ε σ α) (pure b) :=
  fun _ _ hst => .returned h hst

theorem Lockstep.read {α β : Type*} {A : α → β → Prop} {R : σ → τ → Prop} {f : σ → α} {g : τ → β}
    (h : ∀ s t, R s t → A (f s) (g t)) : Lockstep A R (Procedure.read f : Procedure ε σ α) (Procedure.read g) :=
  fun s t hst => .returned (h s t hst) hst

theorem Lockstep.write {R : σ → τ → Prop} {f : σ → σ} {g : τ → τ} (h : ∀ s t, R s t → R (f s) (g t)) :
    Lockstep Eq R (Procedure.write f : Procedure ε σ PUnit.{v + 1}) (Procedure.write g) :=
  fun s t hst => .returned rfl (h s t hst)

def play (exec : ι → Procedure ε σ Unit) : List ι → σ → List (Option ε) × σ
  | [], s => ([],s)
  | i :: is, s =>
      let rest := play exec is (exec i s).state
      ((match exec i s with
        | .returned _ _ => none
        | .thrown e _ => some e) :: rest.1,rest.2)

theorem play_append (exec : ι → Procedure ε σ Unit) (is js : List ι) (s : σ) :
    (play exec (is ++ js) s).2 = (play exec js (play exec is s).2).2 := by
  induction is generalizing s with
  | nil => rfl
  | cons i is ih => exact ih (exec i s).state

theorem play_lockstep {R : σ → τ → Prop} {exec : ι → Procedure ε σ Unit} {exec' : ι → Procedure ε τ Unit}
    (h : ∀ i, Lockstep Eq R (exec i) (exec' i)) (is : List ι) {s : σ} {t : τ} (hst : R s t) :
    (play exec is s).1 = (play exec' is t).1 ∧ R (play exec is s).2 (play exec' is t).2 := by
  induction is generalizing s t with
  | nil => exact ⟨rfl,hst⟩
  | cons i is ih =>
    have hi := h i s t hst
    simp only [play]
    generalize exec i s = o at hi
    generalize exec' i t = o' at hi
    cases hi with
    | returned _ hs =>
      obtain ⟨hl,hr⟩ := ih hs
      exact ⟨congrArg (List.cons none) hl,hr⟩
    | thrown e hs =>
      obtain ⟨hl,hr⟩ := ih hs
      exact ⟨congrArg (List.cons (some e)) hl,hr⟩

def Accepted (exec : ι → Procedure ε σ Unit) (ok : σ → ι → Prop) : List ι → σ → Prop
  | [], _ => True
  | i :: is, s => ok s i ∧ (exec i s).Returns ∧ Accepted exec ok is (exec i s).state

instance decidableAccepted (exec : ι → Procedure ε σ Unit) (ok : σ → ι → Prop) [∀ s i, Decidable (ok s i)] :
    (is : List ι) → (s : σ) → Decidable (Accepted exec ok is s)
  | [], _ => .isTrue trivial
  | i :: is, s =>
      have := decidableAccepted exec ok is (exec i s).state
      inferInstanceAs (Decidable (ok s i ∧ (exec i s).Returns ∧ Accepted exec ok is (exec i s).state))

theorem accepted_forall {exec : ι → Procedure ε σ Unit} {ok : σ → ι → Prop} {A : ι → Prop} (h : ∀ s i, ok s i → A i)
    {is : List ι} {s : σ} (ha : Accepted exec ok is s) : ∀ i ∈ is, A i := by
  induction is generalizing s with
  | nil => simp
  | cons i is ih => exact List.forall_mem_cons.mpr ⟨h s i ha.1,ih ha.2.2⟩

theorem visited_play {exec : ι → Procedure ε σ Unit} {init s : σ} (is : List ι)
    (h : Visited exec (fun _ _ => True) init s) : Visited exec (fun _ _ => True) init (play exec is s).2 := by
  induction is generalizing s with
  | nil => exact h
  | cons i is ih => exact ih (h.step i trivial)

theorem reached_play {exec : ι → Procedure ε σ Unit} {ok : σ → ι → Prop} {init s : σ} (is : List ι)
    (h : Reached exec ok init s) (ha : Accepted exec ok is s) : Reached exec ok init (play exec is s).2 := by
  induction is generalizing s with
  | nil => exact h
  | cons i is ih =>
    obtain ⟨hi,⟨_,s',hr⟩,hrest⟩ := ha
    rw [hr] at hrest
    have hp : (play exec (i :: is) s).2 = (play exec is s').2 := by
      simp only [play,hr]
      rfl
    rw [hp]
    exact ih (.step i h hi hr) hrest

end Procedure
