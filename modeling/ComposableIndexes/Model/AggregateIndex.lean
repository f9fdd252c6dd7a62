import ComposableIndexes.Model.Index

namespace ComposableIndexes

structure FoldArgs (In State Return : Type) where
  init : State
  add : State → In → State
  update : State → In → In → State
  delete : State → In → State
  result : State → Return

namespace FoldArgs

variable {In State Return : Type}

structure Lawful (args : FoldArgs In State Return) : Prop where
  add_comm : ∀ s a b, args.add (args.add s a) b = args.add (args.add s b) a
  delete_add : ∀ s a, args.delete (args.add s a) a = s
  update_eq : ∀ s a b, args.update s a b = args.add (args.delete s a) b

end FoldArgs

namespace FoldIndex

variable {In State Return Out : Type}

def index (args : FoldArgs In State Return) : Index In Out State where
  create := args.init
  onUpdate _ u := pure (Procedure.write (fun state => match u with
    | .add _ value => args.add state value
    | .update _ oldValue newValue => args.update state oldValue newValue
    | .delete _ oldValue => args.delete state oldValue))

end FoldIndex

inductive UnregisteredAggregateIndex : Type → Type → Type 1 where
  | fold {In State Return : Type} (args : FoldArgs In State Return) : UnregisteredAggregateIndex In Return
  | mapAggregate {NewIn NewValue OldIn OldValue : Type} [JsValue NewIn] [JsValue OldIn]
      (inner : UnregisteredAggregateIndex OldIn OldValue) (premap : Option NewIn → Option OldIn)
      (map : OldValue → NewValue) : UnregisteredAggregateIndex NewIn NewValue

namespace UnregisteredAggregateIndex

variable {In Value NewIn NewValue Out : Type} [JsValue In]

def map (a : UnregisteredAggregateIndex In Value) (f : Value → NewValue) :
    UnregisteredAggregateIndex In NewValue :=
  match a with
  | .fold args => .mapAggregate (.fold args) (fun x => x) f
  | @mapAggregate _ _ _ _ _ _ inner pre m => .mapAggregate inner pre (fun x => f (m x))

-- On an index that already has a premap the two functions are composed, and what the first one
-- returns goes to the second one even when it is `undefined`.
def premap [JsValue NewIn] (a : UnregisteredAggregateIndex In Value) (f : Option NewIn → Option In) :
    UnregisteredAggregateIndex NewIn Value :=
  match a with
  | .fold args => .mapAggregate (.fold args) f (fun x => x)
  | @mapAggregate _ _ _ _ _ _ inner pre m => .mapAggregate inner (fun x => pre ((f x).bind JsValue.orUndefined)) m

def State : {In Value : Type} → UnregisteredAggregateIndex In Value → Type
  | _, _, @fold _ S _ _ => S
  | _, _, @mapAggregate _ _ _ _ _ _ inner _ _ => inner.State

def index (Out : Type) : {In Value : Type} → (a : UnregisteredAggregateIndex In Value) → Index In Out a.State
  | _, _, .fold args => FoldIndex.index args
  | _, _, @mapAggregate _ _ _ _ _ _ inner pre _ => PremapIndex.index (JsValue.onValues pre) (index Out inner)

def value : {In Value : Type} → (a : UnregisteredAggregateIndex In Value) → a.State → Value
  | _, _, .fold args, state => args.result state
  | _, _, @mapAggregate _ _ _ _ _ _ inner _ m, state => m (value inner state)

def Lawful : {In Value : Type} → UnregisteredAggregateIndex In Value → Prop
  | _, _, .fold args => args.Lawful
  | _, _, @mapAggregate _ _ _ _ _ _ inner _ _ => inner.Lawful

end UnregisteredAggregateIndex

-- A number of exact arithmetic with the special values of the language.
inductive JsNumber where
  | finite (q : ℚ)
  | posInf
  | negInf
  | nan
  deriving DecidableEq

instance : JsValue JsNumber where
  isUndefined _ := false
  truthy
    | .finite q => q != 0
    | .nan => false
    | _ => true
  defined_of_truthy _ _ := rfl

namespace JsNumber

def add : JsNumber → JsNumber → JsNumber
  | .finite p, .finite q => .finite (p + q)
  | .nan, _ => .nan
  | _, .nan => .nan
  | .posInf, .negInf => .nan
  | .negInf, .posInf => .nan
  | .posInf, _ => .posInf
  | _, .posInf => .posInf
  | .negInf, _ => .negInf
  | _, .negInf => .negInf

def neg : JsNumber → JsNumber
  | .finite q => .finite (-q)
  | .posInf => .negInf
  | .negInf => .posInf
  | .nan => .nan

def div : JsNumber → JsNumber → JsNumber
  | .finite p, .finite q =>
      if q ≠ 0 then .finite (p / q)
      else if 0 < p then .posInf
      else if p < 0 then .negInf
      else .nan
  | .finite _, .posInf => .finite 0
  | .finite _, .negInf => .finite 0
  | .posInf, .finite q => if 0 ≤ q then .posInf else .negInf
  | .negInf, .finite q => if 0 ≤ q then .negInf else .posInf
  | _, _ => .nan

def ofOption : Option JsNumber → JsNumber
  | none => .nan
  | some x => x

end JsNumber

def algebraicGroupIndex {State Return : Type} (empty : State) (append : State → State → State)
    (inverse : State → State) (result : State → Return) : UnregisteredAggregateIndex State Return :=
  .fold {
    init := empty
    add := append
    update := fun state oldValue newValue => append state (append (inverse oldValue) newValue)
    delete := fun state oldValue => append state (inverse oldValue)
    result := result }

def sumIndex : UnregisteredAggregateIndex JsNumber JsNumber :=
  algebraicGroupIndex (.finite 0) JsNumber.add JsNumber.neg (fun a => a)

def arithmeticMeanIndex : UnregisteredAggregateIndex JsNumber JsNumber :=
  (algebraicGroupIndex (JsNumber.finite 0,JsNumber.finite 0) (fun a b => (a.1.add b.1,a.2.add b.2))
    (fun a => (a.1.neg,a.2.neg)) (fun a => a.1.div a.2)).premap (fun a => some (JsNumber.ofOption a,.finite 1))

def countIndex {In : Type} : UnregisteredAggregateIndex In ℤ :=
  .fold {
    init := 0
    add := fun st _ => st + 1
    update := fun st _ _ => st
    delete := fun st _ => st - 1
    result := fun st => st }

end ComposableIndexes
