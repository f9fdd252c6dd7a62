import Mathlib.Tactic
import Mathlib.Data.Fintype.Card

namespace ComposableIndexes

-- `x === undefined` and the truthiness of `x` are all the code asks of a stored value.
class JsValue (α : Type) where
  isUndefined : α → Bool
  truthy : α → Bool
  defined_of_truthy : ∀ a, truthy a = true → isUndefined a = false

namespace JsValue

variable {α : Type} [JsValue α]

def orUndefined (a : α) : Option α := if isUndefined a then none else some a

def truthyOption : Option α → Bool
  | none => false
  | some a => truthy a

def Defined (a : α) : Prop := isUndefined a = false

instance (a : α) : Decidable (Defined a) := inferInstanceAs (Decidable (isUndefined a = false))

theorem orUndefined_of_defined {a : α} (h : Defined a) : orUndefined a = some a := by
  have h' : isUndefined a = false := h
  simp [orUndefined,h']

theorem defined_of_orUndefined {a b : α} (h : orUndefined a = some b) : Defined b := by
  cases ha : isUndefined a with
  | true => simp [orUndefined,ha] at h
  | false =>
    simp only [orUndefined,ha,Bool.false_eq_true,if_false] at h
    cases h
    exact ha

-- A function of the language as one of Lean values: an undefined value is passed on and handed back as `undefined`.
def onValues {β : Type} [JsValue β] (f : Option α → Option β) (a : α) : Option β := (f (orUndefined a)).bind orUndefined

theorem defined_of_onValues {β : Type} [JsValue β] {f : Option α → Option β} {a : α} {b : β} (h : onValues f a = some b) :
    Defined b := by
  obtain ⟨_,_,hb⟩ := Option.bind_eq_some_iff.mp h
  exact defined_of_orUndefined hb

theorem bind_orUndefined (o : Option α) : (o.bind orUndefined).bind orUndefined = o.bind orUndefined := by
  cases o with
  | none => rfl
  | some a =>
    rw [Option.bind_some]
    cases ha : orUndefined a with
    | none => rfl
    | some b => exact orUndefined_of_defined (defined_of_orUndefined ha)

end JsValue

instance : JsValue ℕ where
  isUndefined _ := false
  truthy n := n != 0
  defined_of_truthy _ _ := rfl

instance : JsValue ℤ where
  isUndefined _ := false
  truthy n := n != 0
  defined_of_truthy _ _ := rfl

instance : JsValue Unit where
  isUndefined _ := false
  truthy _ := false
  defined_of_truthy _ _ := rfl

instance {α β : Type} : JsValue (α × β) where
  isUndefined _ := false
  truthy _ := true
  defined_of_truthy _ _ := rfl

instance {α : Type} [JsValue α] : JsValue (Option α) where
  isUndefined o := o.elim true JsValue.isUndefined
  truthy o := o.elim false JsValue.truthy
  defined_of_truthy o h := by
    cases o with
    | none => cases h
    | some a => exact JsValue.defined_of_truthy a h

-- Equality in Lean is the identity of `Map` keys; `===` differs from it on NaN alone.
class JsKey (K : Type) where
  isNaN : K → Bool

instance : JsKey ℕ := ⟨fun _ => false⟩

instance : JsKey ℤ := ⟨fun _ => false⟩

def strictEq {K : Type} [DecidableEq K] [JsKey K] (a b : K) : Bool := decide (a = b) && !JsKey.isNaN a

theorem eq_of_strictEq {K : Type} [DecidableEq K] [JsKey K] {a b : K} (h : strictEq a b = true) :
    a = b := by
  simp only [strictEq,Bool.and_eq_true,decide_eq_true_eq] at h
  exact h.1

structure Long where
  bits : BitVec 64
  unsigned : Bool
  deriving DecidableEq

namespace Long

def uzero : Long := ⟨0,true⟩

def uone : Long := ⟨1,true⟩

def high (l : Long) : BitVec 32 := BitVec.ofNat 32 (l.bits.toNat / 2 ^ 32)

def low (l : Long) : BitVec 32 := BitVec.ofNat 32 l.bits.toNat

def isNegative (l : Long) : Bool := !l.unsigned && l.bits.msb

def add (a b : Long) : Long := ⟨a.bits + b.bits,a.unsigned⟩

def neg (a : Long) : Long := ⟨-a.bits,a.unsigned⟩

def sub (a b : Long) : Long := a.add b.neg

def equals (a b : Long) : Bool :=
  if a.unsigned ≠ b.unsigned ∧ a.bits.msb ∧ b.bits.msb then false
  else decide (a.high = b.high ∧ a.low = b.low)

-- Where the two differ in signedness the receiver decides: a signed one looks at the sign of the difference.
def compare (a b : Long) : ℤ :=
  if a.equals b then 0
  else if a.isNegative && !b.isNegative then -1
  else if !a.isNegative && b.isNegative then 1
  else if !a.unsigned then if (a.sub b).isNegative then -1 else 1
  else if a.high < b.high ∨ b.high = a.high ∧ a.low < b.low then -1
  else 1

def gt (a b : Long) : Bool := decide (0 < a.compare b)

def fromBits (low high : BitVec 32) (unsigned : Bool) : Long :=
  ⟨BitVec.ofNat 64 (high.toNat * 2 ^ 32 + low.toNat),unsigned⟩

@[simp] theorem high_fromBits (l h : BitVec 32) (u : Bool) : (fromBits l h u).high = h := by
  apply BitVec.eq_of_toNat_eq
  have := h.isLt
  have := l.isLt
  simp only [high,fromBits,BitVec.toNat_ofNat]
  omega

@[simp] theorem low_fromBits (l h : BitVec 32) (u : Bool) : (fromBits l h u).low = l := by
  apply BitVec.eq_of_toNat_eq
  have := h.isLt
  have := l.isLt
  simp only [low,fromBits,BitVec.toNat_ofNat]
  omega

theorem fromBits_halves (a : Long) (u : Bool) : fromBits a.low a.high u = ⟨a.bits,u⟩ := by
  have h := a.bits.isLt
  rw [fromBits,Long.mk.injEq]
  refine ⟨?_,rfl⟩
  apply BitVec.eq_of_toNat_eq
  simp only [high,low,BitVec.toNat_ofNat]
  omega

theorem bits_eq_of_halves {a b : Long} (hh : a.high = b.high) (hl : a.low = b.low) :
    a.bits = b.bits := by
  have ha := fromBits_halves a true
  have hb := fromBits_halves b true
  rw [hh,hl,hb] at ha
  exact (congrArg Long.bits ha).symm

theorem halves_inj {a b : Long} : a.high = b.high ∧ a.low = b.low ↔ a.bits = b.bits :=
  ⟨fun h => bits_eq_of_halves h.1 h.2,fun h => by simp [high,low,h]⟩

theorem equals_iff (a b : Long) :
    a.equals b = true ↔ a.bits = b.bits ∧ (a.unsigned = b.unsigned ∨ a.bits.msb = false) := by
  simp only [equals,halves_inj]
  split
  · rename_i h
    simp [h.1,h.2.1]
  · rename_i h
    rw [decide_eq_true_eq,iff_self_and]
    intro hb
    by_contra hno
    push Not at hno
    refine h ⟨hno.1,by simpa using hno.2,?_⟩
    rw [← hb]
    simpa using hno.2

theorem halves_lt {a b : Long} : a.high < b.high ∨ b.high = a.high ∧ a.low < b.low ↔ a.bits < b.bits := by
  have ha := a.bits.isLt
  have hb := b.bits.isLt
  simp only [high,low,BitVec.lt_def,← BitVec.toNat_inj,BitVec.toNat_ofNat]
  omega

theorem gt_iff_of_unsigned {a b : Long} (ha : a.unsigned = true) (hb : b.unsigned = true) :
    a.gt b = true ↔ b.bits < a.bits := by
  have hna : a.isNegative = false := by simp [isNegative,ha]
  have hnb : b.isNegative = false := by simp [isNegative,hb]
  have heq : a.equals b = true ↔ a.bits = b.bits := by simp [equals_iff,ha,hb]
  simp only [gt,compare,hna,hnb,heq,ha,halves_lt,decide_eq_true_eq]
  rcases BitVec.lt_trichotomy a.bits b.bits with h | h | h
  · simp [h,BitVec.ne_of_lt h,BitVec.lt_asymm h]
  · simp [h]
  · simp [h,(BitVec.ne_of_lt h).symm,BitVec.lt_asymm h]

example : (⟨0,false⟩ : Long).gt ⟨BitVec.allOnes 64,true⟩ = true := by decide

end Long

structure Id where
  asLong : Long
  deriving DecidableEq

namespace Id

def fromLong (long : Long) : Id := ⟨long⟩

def equals (id other : Id) : Bool := id.asLong.equals other.asLong

def bits (id : Id) : BitVec 64 := id.asLong.bits

def Unsigned (id : Id) : Prop := id.asLong.unsigned = true

instance (id : Id) : Decidable id.Unsigned := inferInstanceAs (Decidable (id.asLong.unsigned = true))

theorem eq_of_bits {a b : Id} (ha : a.Unsigned) (hb : b.Unsigned) (h : a.bits = b.bits) : a = b := by
  obtain ⟨⟨x,s⟩⟩ := a
  obtain ⟨⟨y,t⟩⟩ := b
  cases ha
  cases hb
  cases h
  rfl

end Id

structure Item (T : Type) where
  id : Id
  value : Option T
  deriving DecidableEq

instance finite_bitVec : Finite (BitVec 64) :=
  Finite.of_injective BitVec.toFin (fun _ _ h => BitVec.eq_of_toNat_eq (congrArg Fin.val h))

end ComposableIndexes
