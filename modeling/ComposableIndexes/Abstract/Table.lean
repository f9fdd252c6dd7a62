import ComposableIndexes.Abstract.Runs

namespace ComposableIndexes

-- A collection that nobody indexes.
structure Table (T : Type) where
  last : Id
  store : IdMap T

namespace Table

variable {T : Type} [JsValue T]

def nextId (t : Table T) : Id := Id.fromLong (t.last.asLong.add Long.uone)

def add (value : T) (t : Table T) : Table T := ⟨t.nextId,t.store.set t.nextId value⟩

def set (id : Id) (newValue : T) (t : Table T) : Table T :=
  ⟨if id.asLong.gt t.last.asLong then id else t.last,t.store.set id newValue⟩

def delete (id : Id) (t : Table T) : Table T :=
  match t.store.get id with
  | none => t
  | some _ => ⟨t.last,t.store.delete id⟩

def putBack (id : Id) (post : Option T) (t : Table T) : Table T :=
  match post with
  | none => t
  | some v => if JsValue.truthy v then t.set id v else t

def alter (id : Id) (f : Option T → Option T) (t : Table T) : Table T :=
  (if JsValue.truthyOption (t.store.get id) then t.delete id else t).putBack id (f (t.store.get id))

end Table

namespace Call

variable {T : Type} [JsValue T]

def write : Call T → Table T → Table T
  | .registerIndex _ => id
  | .add value => Table.add value
  | .set id newValue => Table.set id newValue
  | .delete id => Table.delete id
  | .alter id f => Table.alter id (fun pre => (f pre).1)
  | .adjust id f => Table.alter id (fun pre => (adjusted f pre).1)

-- The deletion that `alter` begins with does not throw.
def Unhindered (c : Collection T) : Call T → Prop
  | .alter id _ => JsValue.truthyOption (c.get id) = true → (Collection.delete id c).Returns
  | .adjust id _ => JsValue.truthyOption (c.get id) = true → (Collection.delete id c).Returns
  | _ => True

def Plain : Call T → Prop
  | .alter _ _ => False
  | .adjust _ _ => False
  | _ => True

-- The call says itself which id it is about.
def Addressed : Call T → Prop
  | .add _ => False
  | _ => True

def mutates : Call T → Bool
  | .registerIndex _ => false
  | _ => true

theorem Plain.unhindered {call : Call T} (h : call.Plain) (c : Collection T) : call.Unhindered c := by
  cases call with
  | alter id f => exact h.elim
  | adjust id f => exact h.elim
  | _ => trivial

theorem write_store {call : Call T} (h : call.Addressed) {t t' : Table T} (ht : t'.store = t.store) :
    (call.write t').store = (call.write t).store := by
  have hset (id : Id) (v : T) {t t' : Table T} (ht : t'.store = t.store) : (t'.set id v).store = (t.set id v).store := by
    rw [Table.set,Table.set,ht]
  have hdelete (id : Id) : (t'.delete id).store = (t.delete id).store := by
    rw [Table.delete,Table.delete,ht]
    cases t.store.get id with
    | none => exact ht
    | some v => rfl
  have hputBack (id : Id) (post : Option T) {t t' : Table T} (ht : t'.store = t.store) :
      (t'.putBack id post).store = (t.putBack id post).store := by
    cases post with
    | none => exact ht
    | some v =>
      rw [Table.putBack,Table.putBack]
      split_ifs
      · exact hset id v ht
      · exact ht
  have halter (id : Id) (f : Option T → Option T) : (t'.alter id f).store = (t.alter id f).store := by
    rw [Table.alter,Table.alter,ht]
    refine hputBack id _ ?_
    split_ifs
    · exact hdelete id
    · exact ht
  cases call with
  | registerIndex e => exact ht
  | add v => exact h.elim
  | set id v => exact hset id v ht
  | delete id => exact hdelete id
  | alter id f => exact halter id _
  | adjust id f => exact halter id _

theorem foldl_write_mutates (calls : List (Call T)) (t : Table T) :
    calls.foldl (fun t call => call.write t) t = (calls.filter mutates).foldl (fun t call => call.write t) t := by
  induction calls generalizing t with
  | nil => rfl
  | cons call calls ih =>
    cases call with
    | registerIndex e => exact ih t
    | _ => exact ih _

end Call

namespace Collection

variable {T : Type} [JsValue T] {c : Collection T} {P : Id → Prop}

def table (c : Collection T) : Table T := ⟨c.last,c.store⟩

theorem propagateUpdate_table (u : Update T) (c : Collection T) : (propagateUpdate u c).state.table = c.table := by
  obtain ⟨ixs,he⟩ := propagateUpdate_frame u c
  rw [he]
  rfl

theorem add_table (v : T) (c : Collection T) : (add v c).state.table = c.table.add v := by
  rw [add_apply,Procedure.bind_pure_state,propagateUpdate_table]
  rfl

theorem set_table (id : Id) (v : T) (c : Collection T) : (set id v c).state.table = c.table.set id v := by
  rw [set_apply,propagateUpdate_table]
  rfl

theorem delete_table (id : Id) (c : Collection T) : (delete id c).state.table = c.table.delete id := by
  cases hv : c.get id with
  | none =>
    rw [delete_absent hv,Table.delete,show c.table.store.get id = none from hv]
    rfl
  | some v =>
    rw [delete_apply hv,Procedure.bind_pure_state,propagateUpdate_table,Table.delete,
      show c.table.store.get id = some v from hv]
    rfl

theorem putBack_table {Ret : Type} (id : Id) (r : Option T × Ret) (c : Collection T) :
    (putBack id r c).state.table = c.table.putBack id r.1 := by
  obtain ⟨post,ret⟩ := r
  cases post with
  | none => rfl
  | some v =>
    cases hv : JsValue.truthy v with
    | false => simp [putBack,Table.putBack,hv,Outcome.state]
    | true =>
      have hs : putBack id (some v,ret) c = (set id v >>= fun _ => pure ret) c := by simp [putBack,hv]
      rw [hs,Procedure.bind_pure_state,set_table]
      simp [Table.putBack,hv]

theorem alter_table {Ret : Type} {id : Id} (f : Option T → Option T × Ret)
    (h : JsValue.truthyOption (c.get id) = true → (delete id c).Returns) :
    (alter id f c).state.table = c.table.alter id (fun pre => (f pre).1) := by
  have hget : c.table.store.get id = c.get id := rfl
  rw [Table.alter,hget]
  cases ht : JsValue.truthyOption (c.get id) with
  | false =>
    rw [alter_keep f ht,putBack_table,if_neg (by simp)]
  | true =>
    obtain ⟨old,c',hd⟩ := h ht
    have hc' : c'.table = c.table.delete id := by
      rw [← delete_table,hd]
      rfl
    rw [alter_drop f ht hd,putBack_table,hc',if_pos rfl]

theorem registerIndex_table (e : UnregisteredIndex T) (c : Collection T) : (registerIndex e c).state.table = c.table := by
  unfold Collection.registerIndex
  split <;> rfl

theorem exec_table {call : Call T} (h : call.Unhindered c) : (call.exec c).state.table = call.write c.table := by
  cases call with
  | registerIndex e =>
    rw [state_exec_registerIndex]
    exact registerIndex_table e c
  | add v =>
    rw [Call.exec,Procedure.bind_pure_state]
    exact add_table v c
  | set id v => exact set_table id v c
  | delete id =>
    rw [Call.exec,Procedure.bind_pure_state]
    exact delete_table id c
  | alter id f =>
    rw [Call.exec,Procedure.bind_pure_state]
    exact alter_table f h
  | adjust id f => exact alter_table (Call.adjusted f) h

theorem unhindered (hc : c.Consistent (fun _ => True)) (call : Call T) : call.Unhindered c := by
  have hdel (id : Id) : (delete id c).Returns := by
    have hP : (fun _ => True) id := trivial
    obtain ⟨c',hr,_⟩ := delete_returned hc hP
    exact ⟨_,_,hr⟩
  cases call with
  | alter id f => exact fun _ => hdel id
  | adjust id f => exact fun _ => hdel id
  | _ => trivial

-- An `alter` that returns has got past its deletion.
theorem unhindered_of_returns {call : Call T} (h : (call.exec c).Returns) : call.Unhindered c := by
  have halter {Ret : Type} (id : Id) (f : Option T → Option T × Ret) (hr : (alter id f c).Returns)
      (ht : JsValue.truthyOption (c.get id) = true) : (delete id c).Returns := by
    cases hd : delete id c with
    | returned old c' => exact ⟨_,_,rfl⟩
    | thrown x c' =>
      rw [alter_thrown f ht hd] at hr
      exact absurd hr (Outcome.not_returns_thrown x c')
  cases call with
  | alter id f =>
    obtain ⟨_,c',hr⟩ := h
    obtain ⟨ret,ha⟩ := Procedure.returned_of_bind_pure hr
    exact halter id f ⟨ret,c',ha⟩
  | adjust id f => exact halter id (Call.adjusted f) h
  | _ => trivial

theorem play_table {calls : List (Call T)} (h : ∀ call ∈ calls, call.Plain) :
    (Procedure.play Call.exec calls c).2.table = calls.foldl (fun t call => call.write t) c.table := by
  induction calls generalizing c with
  | nil => rfl
  | cons call calls ih =>
    obtain ⟨hcall,hcalls⟩ := List.forall_mem_cons.mp h
    rw [List.foldl_cons,← exec_table (hcall.unhindered c)]
    exact ih hcalls

theorem accepted_table {ok : Collection T → Call T → Prop} {calls : List (Call T)}
    (ha : Procedure.Accepted Call.exec ok calls c) :
    (Procedure.play Call.exec calls c).2.table = calls.foldl (fun t call => call.write t) c.table := by
  induction calls generalizing c with
  | nil => rfl
  | cons call calls ih =>
    obtain ⟨_,hr,hrest⟩ := ha
    rw [List.foldl_cons,← exec_table (unhindered_of_returns hr)]
    exact ih hrest

end Collection

end ComposableIndexes
