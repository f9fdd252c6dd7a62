import ComposableIndexes.Model.Collection

namespace ComposableIndexes

-- `IdMap.entries` suspended at a `yield`: the iterator of the outer map and that of the inner map it is in.
-- An inner map that has been removed from the outer one is empty and stays so: its iterator is `none`.
structure Cursor where
  outer : List (BitVec 32)
  inner : Option (BitVec 32 × List (BitVec 32))
  deriving DecidableEq

namespace Cursor

variable {T : Type}

def start (store : IdMap T) : Cursor := ⟨store.map.keys,none⟩

def set (store : IdMap T) (key : Id) (cursor : Cursor) : Cursor where
  outer := store.map.pendingSet key.asLong.high cursor.outer
  inner := cursor.inner.map (fun p =>
    if p.1 = key.asLong.high then
      (p.1,((store.map.get p.1).getD OrderedMap.empty).pendingSet key.asLong.low p.2)
    else p)

def delete (store : IdMap T) (key : Id) (cursor : Cursor) : Cursor :=
  match store.map.get key.asLong.high with
  | none => cursor
  | some inner =>
      if (inner.delete key.asLong.low).size = 0 then
        ⟨OrderedMap.pendingDelete key.asLong.high cursor.outer,
          cursor.inner.filter (fun p => p.1 ≠ key.asLong.high)⟩
      else
        ⟨cursor.outer,cursor.inner.map (fun p =>
          if p.1 = key.asLong.high then (p.1,OrderedMap.pendingDelete key.asLong.low p.2) else p)⟩

def nextOuter (store : IdMap T) : List (BitVec 32) → Option (Id × Cursor)
  | [] => none
  | high :: highs =>
      match (store.map.get high).elim [] OrderedMap.keys with
      | [] => nextOuter store highs
      | low :: lows => some (Id.fromLong (Long.fromBits low high true),⟨highs,some (high,lows)⟩)

def next (store : IdMap T) (cursor : Cursor) : Option (Id × Cursor) :=
  match cursor.inner with
  | some (high,low :: lows) => some (Id.fromLong (Long.fromBits low high true),⟨cursor.outer,some (high,lows)⟩)
  | _ => nextOuter store cursor.outer

end Cursor

structure Live (T : Type) where
  collection : Collection T
  cursor : Cursor

namespace Live

variable {T : Type} [JsValue T]

def start (c : Collection T) : Live T := ⟨c,Cursor.start c.store⟩

def delete (id : Id) : Procedure (Exception T) (Live T) (Option T) := fun live =>
  let cursor :=
    if (live.collection.get id).isSome then live.cursor.delete live.collection.store id else live.cursor
  (Collection.delete id live.collection).mapState (fun c => ⟨c,cursor⟩)

def set (id : Id) (newValue : T) : Procedure (Exception T) (Live T) Unit := fun live =>
  let cursor := live.cursor.set live.collection.store id
  (Collection.set id newValue live.collection).mapState (fun c => ⟨c,cursor⟩)

def alter {Ret : Type} (id : Id) (f : Option T → Option T × Ret) : Procedure (Exception T) (Live T) Ret := do
  let pre ← Procedure.read (fun live => live.collection.get id)
  if JsValue.truthyOption pre then
    let _ ← delete id
  let (post,ret) := f pre
  match post with
  | none => pure ret
  | some v => do
      if JsValue.truthy v then
        set id v
      pure ret

def adjust (id : Id) (f : T → T) : Procedure (Exception T) (Live T) Unit :=
  alter id (fun pre => (if JsValue.truthyOption pre then pre.map f else none,()))

-- The ids visited, or `none` when the fuel runs out first.
def forEach (f : T → Id → Procedure (Exception T) (Live T) Unit) : ℕ → Procedure (Exception T) (Live T) (Option (List Id))
  | 0 => pure none
  | fuel + 1 => fun live =>
      match live.cursor.next live.collection.store with
      | none => .returned (some []) live
      | some (id,cursor) =>
          match live.collection.store.find id.bits with
          | none => .returned (some []) live
          | some value =>
              match f value id ⟨live.collection,cursor⟩ with
              | .thrown e live' => .thrown e live'
              | .returned _ live' =>
                  match forEach f fuel live' with
                  | .thrown e live'' => .thrown e live''
                  | .returned visits live'' => .returned (visits.map (fun ids => id :: ids)) live''

end Live

end ComposableIndexes
