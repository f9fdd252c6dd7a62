import ComposableIndexes.Library.OrderedMap
import ComposableIndexes.Model.Update

namespace ComposableIndexes

inductive Exception (Out : Type) where
  | conflict (existingId : Id) (existingValue : Option Out)
  | typeError
  deriving DecidableEq

structure IndexContext (Out : Type) where
  get : Id → Option Out

def conflictException {Out : Type} (ctx : IndexContext Out) (existingId : Id) : Exception Out :=
  .conflict existingId (ctx.get existingId)

def IndexContext.item {Out : Type} (ctx : IndexContext Out) (id : Id) : Item Out := ⟨id,ctx.get id⟩

abbrev Hook (Out σ : Type) := Procedure (Exception Out) σ Unit

namespace Hook

variable {Out σ : Type}

def skip : Hook Out σ := fun s => .returned () s

def andThen (hook next : Hook Out σ) : Hook Out σ := fun s =>
  match hook s with
  | .returned _ s' => next s'
  | .thrown e s' => .thrown e s'

theorem andThen_returned {hook next : Hook Out σ} {s s' : σ} (h : hook s = .returned () s') :
    hook.andThen next s = next s' := by
  simp [andThen,h]

theorem andThen_thrown {hook next : Hook Out σ} {s s' : σ} {e : Exception Out}
    (h : hook s = .thrown e s') : hook.andThen next s = .thrown e s' := by
  simp [andThen,h]

theorem of_andThen {hook next : Hook Out σ} {s s' : σ} (h : hook.andThen next s = .returned () s') :
    ∃ t, hook s = .returned () t ∧ next t = .returned () s' := by
  cases hh : hook s with
  | thrown e t =>
    rw [andThen_thrown hh] at h
    cases h
  | returned _ t =>
    rw [andThen_returned hh] at h
    exact ⟨t,rfl,h⟩

end Hook

structure Index (In Out σ : Type) where
  create : σ
  onUpdate : IndexContext Out → Update In → Procedure (Exception Out) σ (Hook Out σ)

namespace Index

variable {In Out σ : Type}

def deliver (ix : Index In Out σ) (ctx : IndexContext Out) (u : Update In) :
    Procedure (Exception Out) σ Unit := do
  let hook ← ix.onUpdate ctx u
  hook

end Index

namespace PremapIndex

variable {In InnerIn Out σ : Type}

def index (f : In → Option InnerIn) (inner : Index InnerIn Out σ) : Index In Out σ where
  create := inner.create
  onUpdate ctx u :=
    match filterMapUpdate f u with
    | some innerUpdate => inner.onUpdate ctx innerUpdate
    | none => pure Hook.skip

end PremapIndex

namespace GroupedIndex

variable {In Out G σ : Type} [DecidableEq G]

abbrev State (G σ : Type) := OrderedMap G σ

def getOrCreateGroup (inner : Index In Out σ) (g : G) : Procedure (Exception Out) (State G σ) Unit := fun ixs =>
  match ixs.get g with
  | some _ => .returned () ixs
  | none => .returned () (ixs.set g inner.create)

def inGroup {α : Type} (g : G) (x : Procedure (Exception Out) σ α) : Procedure (Exception Out) (State G σ) α :=
  OrderedMap.atKey .typeError g x

def add (inner : Index In Out σ) (group : In → G) (ctx : IndexContext Out) (id : Id) (value : In) :
    Procedure (Exception Out) (State G σ) (Hook Out (State G σ)) := do
  getOrCreateGroup inner (group value)
  let hook ← inGroup (group value) (inner.onUpdate ctx (.add id value))
  pure (inGroup (group value) hook)

-- A move to another group validates nothing: both inner updates are made inside the hook.
def update [JsKey G] (inner : Index In Out σ) (group : In → G) (ctx : IndexContext Out) (id : Id)
    (oldValue newValue : In) : Procedure (Exception Out) (State G σ) (Hook Out (State G σ)) :=
  if strictEq (group oldValue) (group newValue) then do
    let hook ← inGroup (group oldValue) (inner.onUpdate ctx (.update id oldValue newValue))
    pure (inGroup (group oldValue) hook)
  else do
    let oldIx ← Procedure.read (fun ixs => ixs.has (group oldValue))
    getOrCreateGroup inner (group newValue)
    pure (if oldIx then
        Hook.andThen (inGroup (group oldValue) (inner.deliver ctx (.delete id oldValue)))
          (inGroup (group newValue) (inner.deliver ctx (.add id newValue)))
      else Procedure.raise .typeError)

def delete (inner : Index In Out σ) (group : In → G) (ctx : IndexContext Out) (id : Id) (oldValue : In) :
    Procedure (Exception Out) (State G σ) (Hook Out (State G σ)) := do
  let hook ← inGroup (group oldValue) (inner.onUpdate ctx (.delete id oldValue))
  pure (inGroup (group oldValue) hook)

def index [JsKey G] (group : In → G) (inner : Index In Out σ) : Index In Out (State G σ) where
  create := OrderedMap.empty
  onUpdate ctx u :=
    match u with
    | .add id value => add inner group ctx id value
    | .update id oldValue newValue => update inner group ctx id oldValue newValue
    | .delete id oldValue => delete inner group ctx id oldValue

end GroupedIndex

namespace ZipIndex

variable {In Out σ τ : Type}

def nil : Index In Out Unit where
  create := ()
  onUpdate _ _ := pure Hook.skip

def cons (head : Index In Out σ) (tail : Index In Out τ) : Index In Out (σ × τ) where
  create := (head.create,tail.create)
  onUpdate ctx u := do
    let cb ← Procedure.first (head.onUpdate ctx u)
    let cbs ← Procedure.second (tail.onUpdate ctx u)
    pure (Hook.andThen (Procedure.first cb) (Procedure.second cbs))

end ZipIndex

end ComposableIndexes
