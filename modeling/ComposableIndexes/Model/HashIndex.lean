import ComposableIndexes.Model.IdMap
import ComposableIndexes.Model.Index

namespace ComposableIndexes

namespace HashIndex

variable {K Out : Type} [DecidableEq K]

abbrev State (K : Type) := OrderedMap K IdSet

def add (id : Id) (value : K) (ix : State K) : State K :=
  match ix.get value with
  | some set => ix.set value (set.set id)
  | none => ix.set value (IdSet.new.set id)

def delete (id : Id) (oldValue : K) : Procedure (Exception Out) (State K) Unit := fun ix =>
  match ix.get oldValue with
  | none => .thrown .typeError ix
  | some set =>
      if (set.delete id).empty then .returned () (ix.delete oldValue)
      else .returned () (ix.set oldValue (set.delete id))

def update (id : Id) (oldValue newValue : K) : Procedure (Exception Out) (State K) Unit := do
  delete id oldValue
  Procedure.write (add id newValue)

def index : Index K Out (State K) where
  create := OrderedMap.empty
  onUpdate _ u := pure (match u with
    | .add id value => Procedure.write (add id value)
    | .update id oldValue newValue => update id oldValue newValue
    | .delete id oldValue => delete id oldValue)

def items (ctx : IndexContext Out) : Option IdSet → List (Item Out)
  | none => []
  | some set => set.values.map ctx.item

def countDistinct (ix : State K) : ℕ := ix.size

def eq (ctx : IndexContext Out) (ix : State K) (value : K) : List (Item Out) := items ctx (ix.get value)

end HashIndex

namespace UniqueHashIndex

variable {K Out : Type} [DecidableEq K]

abbrev State (K : Type) := OrderedMap K Id

def add (id : Id) (value : K) (ix : State K) : State K := ix.set value id

def update (id : Id) (oldValue newValue : K) (ix : State K) : State K :=
  (ix.delete oldValue).set newValue id

def delete (oldValue : K) (ix : State K) : State K := ix.delete oldValue

def index : Index K Out (State K) where
  create := OrderedMap.empty
  onUpdate ctx u := fun ix =>
    match u with
    | .add id value =>
        if ix.has value then .thrown (conflictException ctx id) ix
        else .returned (Procedure.write (add id value)) ix
    | .update id oldValue newValue =>
        if ix.has newValue then .thrown (conflictException ctx id) ix
        else .returned (Procedure.write (update id oldValue newValue)) ix
    | .delete _ oldValue => .returned (Procedure.write (delete oldValue)) ix

def countDistinct (ix : State K) : ℕ := ix.size

def eq (ctx : IndexContext Out) (ix : State K) (value : K) : Option (Item Out) :=
  (ix.get value).map ctx.item

end UniqueHashIndex

end ComposableIndexes
