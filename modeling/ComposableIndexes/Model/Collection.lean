import ComposableIndexes.Model.UnregisteredIndex

namespace ComposableIndexes

-- `log` is a ghost field: the updates whose hooks have run on this index, the oldest first.
structure RegisteredIndex (T : Type) where
  expr : UnregisteredIndex T
  state : expr.State
  log : List (Update T)

namespace RegisteredIndex

variable {T : Type}

def new (uIndex : UnregisteredIndex T) : RegisteredIndex T := ⟨uIndex,(uIndex.index T).create,[]⟩

def receive (ctx : IndexContext T) (u : Update T) : Procedure (Exception T) (RegisteredIndex T) Unit := fun ix =>
  match (ix.expr.index T).deliver ctx u ix.state with
  | .returned _ s => .returned () ⟨ix.expr,s,ix.log ++ [u]⟩
  | .thrown e s => .thrown e ⟨ix.expr,s,ix.log⟩

def receiveAll (ctx : IndexContext T) : List (Id × T) → Procedure (Exception T) (RegisteredIndex T) Unit
  | [] => pure ()
  | (id,elem) :: rest => do
      receive ctx (.add id elem)
      receiveAll ctx rest

end RegisteredIndex

structure Prepared (T : Type) where
  expr : UnregisteredIndex T
  state : expr.State
  hook : Hook T expr.State
  log : List (Update T)

def Prepared.abandon {T : Type} (p : Prepared T) : RegisteredIndex T := ⟨p.expr,p.state,p.log⟩

structure Collection (T : Type) where
  last : Id
  store : IdMap T
  indexes : List (RegisteredIndex T)

namespace Collection

variable {T : Type}

def new : Collection T := ⟨Id.fromLong Long.uzero,IdMap.new,[]⟩

def collectHooks (ctx : IndexContext T) (u : Update T) : List (RegisteredIndex T) →
    Except (Exception T × List (RegisteredIndex T)) (List (Prepared T))
  | [] => .ok []
  | ix :: rest =>
      match (ix.expr.index T).onUpdate ctx u ix.state with
      | .thrown e s => .error (e,⟨ix.expr,s,ix.log⟩ :: rest)
      | .returned hook s =>
          match collectHooks ctx u rest with
          | .error (e,rest') => .error (e,⟨ix.expr,s,ix.log⟩ :: rest')
          | .ok ps => .ok (⟨ix.expr,s,hook,ix.log⟩ :: ps)

def runHooks (u : Update T) : List (Prepared T) → Outcome (Exception T) (List (RegisteredIndex T)) Unit
  | [] => .returned () []
  | p :: ps =>
      match p.hook p.state with
      | .thrown e s => .thrown e (⟨p.expr,s,p.log⟩ :: ps.map Prepared.abandon)
      | .returned _ s => (runHooks u ps).mapState (fun rest => ⟨p.expr,s,p.log ++ [u]⟩ :: rest)

def forEach {σ : Type} (c : Collection T) (f : T → Id → σ → σ) (s : σ) : σ := c.store.forEach f s

def toList (c : Collection T) : List (Id × T) := c.store.entries

def newId : Procedure (Exception T) (Collection T) Id := fun c =>
  let last := Id.fromLong (c.last.asLong.add Long.uone)
  .returned last { c with last := last }

variable [JsValue T]

def get (c : Collection T) (id : Id) : Option T := c.store.get id

def context (c : Collection T) : IndexContext T := ⟨c.store.get⟩

def propagateUpdate (u : Update T) : Procedure (Exception T) (Collection T) Unit := fun c =>
  match collectHooks c.context u c.indexes with
  | .error (e,indexes) => .thrown e { c with indexes := indexes }
  | .ok ps => (runHooks u ps).mapState (fun indexes => { c with indexes := indexes })

def registerIndex (uIndex : UnregisteredIndex T) : Procedure (Exception T) (Collection T) (RegisteredIndex T) := fun c =>
  match RegisteredIndex.receiveAll c.context c.store.entries (.new uIndex) with
  | .thrown e _ => .thrown e c
  | .returned _ ix => .returned ix { c with indexes := c.indexes ++ [ix] }

def add (value : T) : Procedure (Exception T) (Collection T) Id := do
  let id ← newId
  Procedure.write (fun c => { c with store := c.store.set id value })
  propagateUpdate (.add id value)
  pure id

def delete (id : Id) : Procedure (Exception T) (Collection T) (Option T) := do
  let oldValue ← Procedure.read (fun c => c.store.get id)
  match oldValue with
  | none => pure none
  | some oldValue => do
      Procedure.write (fun c => { c with store := c.store.delete id })
      propagateUpdate (.delete id oldValue)
      pure (some oldValue)

def set (id : Id) (newValue : T) : Procedure (Exception T) (Collection T) Unit := do
  Procedure.write (fun c => if id.asLong.gt c.last.asLong then { c with last := id } else c)
  let oldValue ← Procedure.read (fun c => c.store.get id)
  Procedure.write (fun c => { c with store := c.store.set id newValue })
  propagateUpdate (match oldValue with
    | none => .add id newValue
    | some oldValue => .update id oldValue newValue)

def alter {Ret : Type} (id : Id) (f : Option T → Option T × Ret) : Procedure (Exception T) (Collection T) Ret := do
  let pre ← Procedure.read (fun c => c.get id)
  if JsValue.truthyOption pre then
    let _ ← delete id
  let (post,ret) := f pre
  match post with
  | none => pure ret
  | some v => do
      if JsValue.truthy v then
        set id v
      pure ret

def adjust (id : Id) (f : T → T) : Procedure (Exception T) (Collection T) Unit :=
  alter id (fun pre => (if JsValue.truthyOption pre then pre.map f else none,()))

section Throwing

variable {E Ret : Type}

-- `alter` and `adjust` with a callback that may throw an `E`.
def alterThrowing (id : Id) (f : Option T → Except E (Option T × Ret)) :
    Procedure (Exception T ⊕ E) (Collection T) Ret := do
  let pre ← Procedure.read (fun c => c.get id)
  if JsValue.truthyOption pre then
    let _ ← Procedure.mapError Sum.inl (delete id)
  let (post,ret) ← Procedure.mapError Sum.inr (Procedure.ofExcept (f pre))
  match post with
  | none => pure ret
  | some v => do
      if JsValue.truthy v then
        Procedure.mapError Sum.inl (set id v)
      pure ret

def adjustedThrowing (f : T → Except E T) : Option T → Except E (Option T × Unit)
  | none => .ok (none,())
  | some pre => if JsValue.truthy pre then (f pre).map (fun post => (some post,())) else .ok (none,())

def adjustThrowing (id : Id) (f : T → Except E T) : Procedure (Exception T ⊕ E) (Collection T) Unit :=
  alterThrowing id (adjustedThrowing f)

end Throwing

end Collection

inductive Call (T : Type) where
  | registerIndex (uIndex : UnregisteredIndex T)
  | add (value : T)
  | set (id : Id) (newValue : T)
  | delete (id : Id)
  | alter {Ret : Type} (id : Id) (f : Option T → Option T × Ret)
  | adjust (id : Id) (f : T → T)

namespace Call

variable {T : Type} [JsValue T]

def exec : Call T → Procedure (Exception T) (Collection T) Unit
  | .registerIndex uIndex => fun c =>
      match Collection.registerIndex uIndex c with
      | .returned _ c' => .returned () c'
      | .thrown e c' => .thrown e c'
  | .add value => do
      let _ ← Collection.add value
  | .set id newValue => Collection.set id newValue
  | .delete id => do
      let _ ← Collection.delete id
  | .alter id f => do
      let _ ← Collection.alter id f
  | .adjust id f => Collection.adjust id f

end Call

end ComposableIndexes
