import ComposableIndexes.Abstract.Exchange
import ComposableIndexes.Properties.Adequacy
import ComposableIndexes.Properties.Halves

namespace ComposableIndexes

namespace IdMap

variable {T : Type}

def load (m : IdMap T) (items : List (Id × T)) : IdMap T := items.foldl (fun m p => m.set p.1 p.2) m

theorem ext {m n : IdMap T} (h : m.map = n.map) : m = n := by
  cases m
  cases n
  cases h
  rfl

end IdMap

namespace Collection

open RegisteredIndex (Obstacle Separate)

variable {T : Type} [JsValue T] {P : Id → Prop} {c c' : Collection T} {es : List (UnregisteredIndex T)} {items : List (Id × T)}

end Collection

end ComposableIndexes
