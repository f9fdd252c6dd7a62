import ComposableIndexes.Abstract.Exchange
import ComposableIndexes.Properties.Adequacy
import ComposableIndexes.Properties.Totals
import ComposableIndexes.Properties.Zip

namespace ComposableIndexes

variable {T : Type}

namespace UnregisteredIndex

def zipAll (es : List (UnregisteredIndex T)) : UnregisteredIndex T := es.foldr .zipCons .zipNil

theorem zipAll_of_zipOf {es : List (UnregisteredIndex T)} {e : UnregisteredIndex T} (h : zipOf es = some e) :
    e = zipAll es := by
  unfold zipOf at h
  split at h <;> cases h <;> rfl

theorem clashes_zipCons (a b : UnregisteredIndex T) (S : Contents T) (u : Update T) :
    (zipCons a b).Clashes S u ↔ a.Clashes S u ∨ b.Clashes S u := by
  simp only [Clashes,Rejects,Defers,ZipIndex.Either]
  tauto

section Group

variable {G : Type} [DecidableEq G] [JsKey G] (f : T → G) (a : UnregisteredIndex T) (S : Contents T)

end Group

end UnregisteredIndex

open UnregisteredIndex
open GroupedIndex (part)

section SameClashes

variable {e e' a a' b b' : UnregisteredIndex T}

theorem SameClashes.refl (e : UnregisteredIndex T) : SameClashes e e := fun _ _ _ => Iff.rfl

theorem SameClashes.trans {e'' : UnregisteredIndex T} (h : SameClashes e e') (h' : SameClashes e' e'') : SameClashes e e'' :=
  fun S u hu => (h S u hu).trans (h' S u hu)

theorem SameClashes.zipCons (h : SameClashes a a') (h' : SameClashes b b') : SameClashes (.zipCons a b) (.zipCons a' b') := by
  intro S u hu
  rw [clashes_zipCons,clashes_zipCons,h S u hu,h' S u hu]

end SameClashes

section OverZip

variable {A G : Type} [DecidableEq G] [JsKey G]

end OverZip

section PremapGroup

variable {A G : Type} {p : T → Option A} {f : A → G} {f' : T → G}

-- `f'` groups an input like `f` groups what `p` makes of it; inputs that `p` ignores may be put anywhere.
def GroupsThrough (p : T → Option A) (f : A → G) (f' : T → G) : Prop := ∀ v w, p v = some w → f' v = f w

variable [DecidableEq G]

theorem GroupsThrough.contents (h : GroupsThrough p f f') (S : Contents T) (g : G) :
    (S.filterMap (part f' g)).filterMap p = (S.filterMap p).filterMap (part f g) := by
  funext i
  simp only [PartialMap.filterMap_apply]
  cases S i with
  | none => rfl
  | some v =>
    cases hp : p v with
    | none => by_cases hg : f' v = g <;> simp [part,hg,hp]
    | some w => by_cases hg : f w = g <;> simp [part,h v w hp,hg,hp]

variable [JsKey G]

end PremapGroup

section Nested

variable {G H K : Type} [DecidableEq G] [DecidableEq H] [DecidableEq K]

-- One key in the place of two: equal as a key of a `Map`, and under `===`, when both are.
structure Pairs [JsKey G] [JsKey H] [JsKey K] (pair : G → H → K) : Prop where
  eq_iff : ∀ a b a' b', pair a b = pair a' b' ↔ a = a' ∧ b = b'
  strictEq_eq : ∀ a b a' b', strictEq (pair a b) (pair a' b') = (strictEq a a' && strictEq b b')

variable [JsKey G] [JsKey H] [JsKey K] {pair : G → H → K}

theorem Pairs.contents (h : Pairs pair) (f : T → G) (g : T → H) (S : Contents T) (a : G) (b : H) :
    (S.filterMap (part f a)).filterMap (part g b) = S.filterMap (part (fun v => pair (f v) (g v)) (pair a b)) := by
  funext i
  simp only [PartialMap.filterMap_apply]
  cases S i with
  | none => rfl
  | some v => by_cases ha : f v = a <;> by_cases hb : g v = b <;> simp [part,h.eq_iff,ha,hb]

end Nested

section Filters

variable {G : Type} [DecidableEq G]

variable [JsKey G] {f : T → G} {gs : List G}

end Filters

namespace Query

variable {Out R : Type} {a : UnregisteredIndex T}

end Query

namespace Collection

variable [JsValue T] {c : Collection T} {e e' : UnregisteredIndex T}

section OverZip

variable {A G : Type} [DecidableEq G] [JsKey G]

end OverZip

section Grouping

variable {A G H K : Type} [DecidableEq G] [JsKey G] [DecidableEq H] [JsKey H] [DecidableEq K] [JsKey K]

end Grouping

section Filters

variable {G : Type} [DecidableEq G] [JsKey G] {f : T → G}

end Filters

end Collection

end ComposableIndexes
