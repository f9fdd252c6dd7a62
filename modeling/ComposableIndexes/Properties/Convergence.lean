import ComposableIndexes.Properties.Adequacy
import ComposableIndexes.Properties.Replay

namespace ComposableIndexes

namespace Write

variable {T : Type}

def key (w : Write T) : BitVec 64 := w.entry.1

-- What the writes leave at an id: the last of them that is about it decides.
def finalAt (S : Contents T) (ws : List (Write T)) (i : BitVec 64) : Option T :=
  (List.lastOn key ws i).elim (S i) (fun w => w.entry.2)

theorem foldl_finalAt (S : Contents T) (ws : List (Write T)) :
    (ws.map entry).foldl (fun S e => Function.update S e.1 e.2) S = finalAt S ws := by
  funext i
  rw [List.foldl_map]
  have hstep (S : Contents T) (w : Write T) (i : BitVec 64) :
      id (Function.update S w.key w.entry.2) i = if w.key = i then w.entry.2 else id S i := by
    rw [id,id,Function.update_apply]
    exact if_congr eq_comm rfl rfl
  exact List.foldl_lastOn hstep S ws i

end Write

namespace Collection

variable {T R : Type} [JsValue T] {c c' : Collection T}

theorem write_contents (hd : ∀ i v, c.contents i = some v → JsValue.Defined v) (w : Write T) :
    (w.call.exec c).state.contents = Function.update c.contents w.entry.1 w.entry.2 := by
  cases w with
  | set id v =>
    have hst : (Collection.set id v c).state.store = c.store.set id v := set_store id v c
    exact (congrArg IdMap.find hst).trans (find_set_eq c id v)
  | delete id =>
    have he := Procedure.bind_pure_state (delete id) (fun _ => ()) c
    have hs : (Call.exec (.delete id) c).state = (delete id c).state := he
    rw [Write.call,hs,delete_contents hd]
    rfl

theorem write_defined (hd : ∀ i v, c.contents i = some v → JsValue.Defined v) {w : Write T} (hw : w.Defined) :
    ∀ i v, (w.call.exec c).state.contents i = some v → JsValue.Defined v := by
  intro i v hi
  rw [write_contents hd,Function.update_apply] at hi
  split at hi
  · cases w with
    | set id v' =>
      cases hi
      exact hw
    | delete id => cases hi
  · exact hd i v hi

end Collection

end ComposableIndexes
