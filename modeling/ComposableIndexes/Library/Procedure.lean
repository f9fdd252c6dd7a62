import Mathlib.Tactic

universe u v w

inductive Outcome (ε : Type u) (σ : Type v) (α : Type w) where
  | returned (a : α) (s : σ)
  | thrown (e : ε) (s : σ)
  deriving DecidableEq

namespace Outcome

variable {ε : Type u} {σ : Type v} {α : Type w}

def state : Outcome ε σ α → σ
  | .returned _ s => s
  | .thrown _ s => s

def mapState {τ : Type*} (f : σ → τ) : Outcome ε σ α → Outcome ε τ α
  | .returned a s => .returned a (f s)
  | .thrown e s => .thrown e (f s)

def mapError {δ : Type*} (f : ε → δ) : Outcome ε σ α → Outcome δ σ α
  | .returned a s => .returned a s
  | .thrown e s => .thrown (f e) s

def Returns (o : Outcome ε σ α) : Prop := ∃ a s, o = .returned a s

def Throws (o : Outcome ε σ α) : Prop := ∃ e s, o = .thrown e s

@[simp] theorem returns_returned (a : α) (s : σ) : (Outcome.returned a s : Outcome ε σ α).Returns :=
  ⟨a,s,rfl⟩

@[simp] theorem not_returns_thrown (e : ε) (s : σ) : ¬(Outcome.thrown e s : Outcome ε σ α).Returns := by
  rintro ⟨a,t,h⟩
  cases h

@[simp] theorem throws_thrown (e : ε) (s : σ) : (Outcome.thrown e s : Outcome ε σ α).Throws :=
  ⟨e,s,rfl⟩

@[simp] theorem not_throws_returned (a : α) (s : σ) : ¬(Outcome.returned a s : Outcome ε σ α).Throws := by
  rintro ⟨e,t,h⟩
  cases h

inductive Meets (I : σ → Prop) (E : ε → Prop) (A : α → Prop) : Outcome ε σ α → Prop where
  | returned {a : α} {s : σ} (ha : A a) (hs : I s) : Meets I E A (.returned a s)
  | thrown {e : ε} {s : σ} (he : E e) (hs : I s) : Meets I E A (.thrown e s)

theorem Meets.state {I : σ → Prop} {E : ε → Prop} {A : α → Prop} {o : Outcome ε σ α} (h : Meets I E A o) :
    I o.state := by
  cases h with
  | returned _ hs => exact hs
  | thrown _ hs => exact hs

theorem Meets.mapState {τ : Type*} {I : σ → Prop} {J : τ → Prop} {E : ε → Prop} {A : α → Prop} {f : σ → τ}
    {o : Outcome ε σ α} (h : Meets I E A o) (hf : ∀ s, I s → J (f s)) : Meets J E A (o.mapState f) := by
  cases h with
  | returned ha hs => exact .returned ha (hf _ hs)
  | thrown he hs => exact .thrown he (hf _ hs)

instance (o : Outcome ε σ α) : Decidable o.Returns :=
  match o with
  | .returned a s => .isTrue (returns_returned a s)
  | .thrown e s => .isFalse (not_returns_thrown e s)

end Outcome

def Procedure (ε : Type u) (σ : Type v) (α : Type w) := σ → Outcome ε σ α

namespace Procedure

variable {ε : Type u} {σ : Type v} {τ : Type*} {α β : Type w}

protected def pure (a : α) : Procedure ε σ α := fun s => .returned a s

protected def bind (x : Procedure ε σ α) (f : α → Procedure ε σ β) : Procedure ε σ β := fun s =>
  match x s with
  | .returned a s' => f a s'
  | .thrown e s' => .thrown e s'

instance : Monad (Procedure ε σ) where
  pure := Procedure.pure
  bind := Procedure.bind

def raise (e : ε) : Procedure ε σ α := fun s => .thrown e s

def read (f : σ → α) : Procedure ε σ α := fun s => .returned (f s) s

def write (f : σ → σ) : Procedure ε σ PUnit := fun s => .returned ⟨⟩ (f s)

def mapError {δ : Type*} (f : ε → δ) (x : Procedure ε σ α) : Procedure δ σ α := fun s => (x s).mapError f

def ofExcept (x : Except ε α) : Procedure ε σ α := fun s =>
  match x with
  | .ok a => .returned a s
  | .error e => .thrown e s

@[simp] theorem pure_apply (a : α) (s : σ) : (pure a : Procedure ε σ α) s = .returned a s := rfl

theorem bind_apply (x : Procedure ε σ α) (f : α → Procedure ε σ β) (s : σ) :
    (x >>= f) s = match x s with
      | .returned a s' => f a s'
      | .thrown e s' => .thrown e s' := rfl

theorem bind_returned {x : Procedure ε σ α} {f : α → Procedure ε σ β} {s s' : σ} {a : α}
    (h : x s = .returned a s') : (x >>= f) s = f a s' := by
  rw [bind_apply,h]

theorem bind_thrown {x : Procedure ε σ α} {f : α → Procedure ε σ β} {s s' : σ} {e : ε}
    (h : x s = .thrown e s') : (x >>= f) s = .thrown e s' := by
  rw [bind_apply,h]

theorem returned_of_bind {x : Procedure ε σ α} {f : α → Procedure ε σ β} {s s' : σ} {b : β}
    (h : (x >>= f) s = .returned b s') : ∃ a t, x s = .returned a t ∧ f a t = .returned b s' := by
  cases hx : x s with
  | thrown e t =>
    rw [bind_thrown hx] at h
    cases h
  | returned a t =>
    rw [bind_returned hx] at h
    exact ⟨a,t,rfl,h⟩

theorem bind_pure_state (x : Procedure ε σ α) (f : α → β) (s : σ) :
    ((x >>= fun a => pure (f a)) s).state = (x s).state := by
  rw [bind_apply]
  cases x s <;> rfl

theorem thrown_of_bind_pure {x : Procedure ε σ α} {f : α → β} {s s' : σ} {e : ε}
    (h : (x >>= fun a => pure (f a)) s = .thrown e s') : x s = .thrown e s' := by
  rw [bind_apply] at h
  cases hx : x s with
  | returned a t =>
    rw [hx] at h
    cases h
  | thrown e' t =>
    rw [hx] at h
    cases h
    rfl

theorem returned_of_bind_pure {x : Procedure ε σ α} {f : α → β} {s s' : σ} {b : β}
    (h : (x >>= fun a => pure (f a)) s = .returned b s') : ∃ a, x s = .returned a s' := by
  obtain ⟨a,t,hx,hp⟩ := returned_of_bind h
  cases hp
  exact ⟨a,hx⟩

-- What a bind does to a part of the state, when both of its halves do that to the part.
theorem mapState_bind {f : σ → τ} {x : Procedure ε σ α} {y : Procedure ε τ α} {g : α → Procedure ε σ β}
    {h : α → Procedure ε τ β} {s : σ} (hx : (x s).mapState f = y (f s))
    (hg : ∀ a s', x s = .returned a s' → (g a s').mapState f = h a (f s')) :
    ((x >>= g) s).mapState f = (y >>= h) (f s) := by
  cases hr : x s with
  | thrown e s' =>
    rw [hr] at hx
    rw [bind_thrown hr,bind_thrown hx.symm]
    rfl
  | returned a s' =>
    rw [hr] at hx
    rw [bind_returned hr,bind_returned hx.symm]
    exact hg a s' hr

@[simp] theorem read_apply (f : σ → α) (s : σ) : (read f : Procedure ε σ α) s = .returned (f s) s := rfl

@[simp] theorem write_apply (f : σ → σ) (s : σ) : (write f : Procedure ε σ PUnit) s = .returned ⟨⟩ (f s) := rfl

theorem mapError_returned {δ : Type*} (f : ε → δ) {x : Procedure ε σ α} {s s' : σ} {a : α} (h : x s = .returned a s') :
    mapError f x s = .returned a s' := by
  simp [mapError,h,Outcome.mapError]

theorem mapError_thrown {δ : Type*} (f : ε → δ) {x : Procedure ε σ α} {s s' : σ} {e : ε} (h : x s = .thrown e s') :
    mapError f x s = .thrown (f e) s' := by
  simp [mapError,h,Outcome.mapError]

def first (x : Procedure ε σ α) : Procedure ε (σ × τ) α := fun s => (x s.1).mapState (fun t => (t,s.2))

def second (x : Procedure ε τ α) : Procedure ε (σ × τ) α := fun s => (x s.2).mapState (fun t => (s.1,t))

theorem first_returned {x : Procedure ε σ α} {s s' : σ} {a : α} (h : x s = .returned a s') (t : τ) :
    first x (s,t) = .returned a (s',t) := by
  simp [first,h,Outcome.mapState]

theorem first_thrown {x : Procedure ε σ α} {s s' : σ} {e : ε} (h : x s = .thrown e s') (t : τ) :
    first x (s,t) = .thrown e (s',t) := by
  simp [first,h,Outcome.mapState]

theorem of_first {x : Procedure ε σ α} {s : σ} {t : τ} {st : σ × τ} {a : α} (h : first x (s,t) = .returned a st) :
    ∃ s', x s = .returned a s' ∧ st = (s',t) := by
  cases hx : x s with
  | thrown e s' =>
    rw [first_thrown hx] at h
    cases h
  | returned b s' =>
    rw [first_returned hx] at h
    cases h
    exact ⟨s',rfl,rfl⟩

theorem second_returned {x : Procedure ε τ α} {t t' : τ} {a : α} (h : x t = .returned a t') (s : σ) :
    second x (s,t) = .returned a (s,t') := by
  simp [second,h,Outcome.mapState]

theorem second_thrown {x : Procedure ε τ α} {t t' : τ} {e : ε} (h : x t = .thrown e t') (s : σ) :
    second x (s,t) = .thrown e (s,t') := by
  simp [second,h,Outcome.mapState]

theorem of_second {x : Procedure ε τ α} {s : σ} {t : τ} {st : σ × τ} {a : α} (h : second x (s,t) = .returned a st) :
    ∃ t', x t = .returned a t' ∧ st = (s,t') := by
  cases hx : x t with
  | thrown e t' =>
    rw [second_thrown hx] at h
    cases h
  | returned b t' =>
    rw [second_returned hx] at h
    cases h
    exact ⟨t',rfl,rfl⟩

def Preserves (I : σ → Prop) (x : Procedure ε σ α) : Prop := ∀ s, I s → I (x s).state

theorem Preserves.pure {I : σ → Prop} (a : α) : Preserves I (pure a : Procedure ε σ α) := fun _ hs => hs

theorem Preserves.read {I : σ → Prop} (f : σ → α) : Preserves I (read f : Procedure ε σ α) := fun _ hs => hs

theorem Preserves.bind {I : σ → Prop} {x : Procedure ε σ α} {f : α → Procedure ε σ β} (hx : Preserves I x)
    (hf : ∀ a, Preserves I (f a)) : Preserves I (x >>= f) := by
  intro s hs
  have hxs := hx s hs
  rw [bind_apply]
  cases ho : x s with
  | returned a s' =>
    rw [ho] at hxs
    exact hf a s' hxs
  | thrown e s' =>
    rw [ho] at hxs
    exact hxs

-- Run in a state of `I` the procedure ends in one, returns a value of `A` or throws an exception of `E`.
def Keeps (I : σ → Prop) (E : ε → Prop) (A : α → Prop) (x : Procedure ε σ α) : Prop := ∀ s, I s → (x s).Meets I E A

section Keeps

variable {I : σ → Prop} {J : τ → Prop} {E : ε → Prop} {A : α → Prop} {B : β → Prop}

theorem Keeps.pure {a : α} (ha : A a) : Keeps I E A (pure a : Procedure ε σ α) := fun _ hs => .returned ha hs

theorem Keeps.raise {e : ε} (he : E e) : Keeps I E A (raise e : Procedure ε σ α) := fun _ hs => .thrown he hs

theorem Keeps.read {f : σ → α} (h : ∀ s, I s → A (f s)) : Keeps I E A (read f : Procedure ε σ α) :=
  fun s hs => .returned (h s hs) hs

theorem Keeps.write {f : σ → σ} (h : ∀ s, I s → I (f s)) :
    Keeps I E (fun _ => True) (write f : Procedure ε σ PUnit) := fun s hs => .returned trivial (h s hs)

theorem Keeps.of_forall {x : Procedure ε σ α} (hI : ∀ s, I s) (hE : ∀ e, E e) (hA : ∀ a, A a) : Keeps I E A x := by
  intro s _
  cases x s with
  | returned a s' => exact .returned (hA a) (hI s')
  | thrown e s' => exact .thrown (hE e) (hI s')

theorem Keeps.imp {F : ε → Prop} {C : α → Prop} {x : Procedure ε σ α} (h : Keeps I E A x) (hE : ∀ e, E e → F e)
    (hA : ∀ a, A a → C a) : Keeps I F C x := by
  intro s hs
  have hx := h s hs
  generalize x s = o at hx
  cases hx with
  | returned ha hs' => exact .returned (hA _ ha) hs'
  | thrown he hs' => exact .thrown (hE _ he) hs'

theorem Keeps.bind {x : Procedure ε σ α} {f : α → Procedure ε σ β} (hx : Keeps I E A x)
    (hf : ∀ a, A a → Keeps I E B (f a)) : Keeps I E B (x >>= f) := by
  intro s hs
  have hxs := hx s hs
  rw [bind_apply]
  generalize x s = o at hxs
  cases hxs with
  | returned ha hs' => exact hf _ ha _ hs'
  | thrown he hs' => exact .thrown he hs'

theorem Keeps.first {x : Procedure ε σ α} (hx : Keeps I E A x) :
    Keeps (fun p : σ × τ => I p.1 ∧ J p.2) E A (first x) :=
  fun p hp => (hx p.1 hp.1).mapState (fun _ hs => ⟨hs,hp.2⟩)

theorem Keeps.second {x : Procedure ε τ α} (hx : Keeps J E A x) :
    Keeps (fun p : σ × τ => I p.1 ∧ J p.2) E A (second x) :=
  fun p hp => (hx p.2 hp.2).mapState (fun _ ht => ⟨hp.1,ht⟩)

end Keeps

end Procedure
