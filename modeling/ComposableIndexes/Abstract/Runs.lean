import ComposableIndexes.Abstract.Calls

namespace ComposableIndexes

namespace Call

variable {T : Type} [JsValue T]

def DefinedValues : Call T → Prop
  | .add value => JsValue.Defined value
  | .set _ newValue => JsValue.Defined newValue
  | _ => True

def UnsignedIds : Call T → Prop
  | .set id _ => id.Unsigned
  | .delete id => id.Unsigned
  | .alter id _ => id.Unsigned
  | .adjust id _ => id.Unsigned
  | _ => True

def BelowTop (c : Collection T) : Call T → Prop
  | .add _ => c.last.bits ≠ BitVec.allOnes 64
  | _ => True

def FreshId (c : Collection T) : Call T → Prop
  | .add _ => c.contents c.nextId.bits = none
  | _ => True

def Harmless (c : Collection T) : Call T → Prop
  | .registerIndex _ => True
  | .set id newValue => c.get id = some newValue
  | _ => False

instance : (call : Call T) → Decidable call.DefinedValues
  | .add value => inferInstanceAs (Decidable (JsValue.Defined value))
  | .set _ newValue => inferInstanceAs (Decidable (JsValue.Defined newValue))
  | .registerIndex _ | .delete _ | .alter _ _ | .adjust _ _ => .isTrue trivial

instance : (call : Call T) → Decidable call.UnsignedIds
  | .set id _ => inferInstanceAs (Decidable id.Unsigned)
  | .delete id => inferInstanceAs (Decidable id.Unsigned)
  | .alter id _ => inferInstanceAs (Decidable id.Unsigned)
  | .adjust id _ => inferInstanceAs (Decidable id.Unsigned)
  | .registerIndex _ | .add _ => .isTrue trivial

instance (c : Collection T) : (call : Call T) → Decidable (call.BelowTop c)
  | .add _ => inferInstanceAs (Decidable (c.last.bits ≠ BitVec.allOnes 64))
  | .registerIndex _ | .set _ _ | .delete _ | .alter _ _ | .adjust _ _ => .isTrue trivial

instance (c : Collection T) : (call : Call T) → Decidable (call.FreshId c)
  | .add _ => inferInstanceAs (Decidable (c.contents c.nextId.bits = none))
  | .registerIndex _ | .set _ _ | .delete _ | .alter _ _ | .adjust _ _ => .isTrue trivial

structure Ordinary (c : Collection T) (call : Call T) : Prop where
  defined : call.DefinedValues
  unsigned : call.UnsignedIds
  below : call.BelowTop c

structure Proper (c : Collection T) (call : Call T) : Prop where
  defined : call.DefinedValues
  fresh : call.FreshId c

instance (c : Collection T) (call : Call T) : Decidable (call.Ordinary c) :=
  decidable_of_iff (call.DefinedValues ∧ call.UnsignedIds ∧ call.BelowTop c)
    ⟨fun h => ⟨h.1,h.2.1,h.2.2⟩,fun h => ⟨h.defined,h.unsigned,h.below⟩⟩

instance (c : Collection T) (call : Call T) : Decidable (call.Proper c) :=
  decidable_of_iff (call.DefinedValues ∧ call.FreshId c) ⟨fun h => ⟨h.1,h.2⟩,fun h => ⟨h.defined,h.fresh⟩⟩

theorem Proper.admissible {c : Collection T} {call : Call T} (h : call.Proper c) :
    call.Admissible (fun _ => True) c := by
  cases call with
  | add v => exact ⟨h.defined,trivial,h.fresh⟩
  | set id v => exact ⟨h.defined,trivial⟩
  | _ => trivial

end Call

namespace Collection

open Procedure (Preserves)

variable {T : Type} {c : Collection T}

structure Counter (c : Collection T) : Prop where
  unsigned : c.last.Unsigned
  dominates : ∀ i v, c.contents i = some v → i.toNat ≤ c.last.bits.toNat

theorem counter_new : (new : Collection T).Counter := ⟨rfl,by simp [contents,new]⟩

theorem nextId_toNat (ht : c.last.bits ≠ BitVec.allOnes 64) : c.nextId.bits.toNat = c.last.bits.toNat + 1 := by
  have he : c.nextId.bits = c.last.bits + 1 := rfl
  have hne : c.last.bits.toNat ≠ 2 ^ 64 - 1 := fun h => ht (BitVec.eq_of_toNat_eq h)
  rw [he]
  bv_omega

theorem Counter.nextId_fresh (h : c.Counter) (ht : c.last.bits ≠ BitVec.allOnes 64) :
    c.contents c.nextId.bits = none := by
  cases hv : c.contents c.nextId.bits with
  | none => rfl
  | some v =>
    have hle := h.dominates _ v hv
    rw [nextId_toNat ht] at hle
    omega

theorem Counter.written (h : c.Counter) {last id : Id} (hu : last.Unsigned)
    (hc : c.last.bits.toNat ≤ last.bits.toNat) (hid : id.bits.toNat ≤ last.bits.toNat) (v : T) :
    ({ c with last := last, store := c.store.set id v } : Collection T).Counter := by
  refine ⟨hu,?_⟩
  intro i w hw
  rw [contents,find_set_eq,PartialMap.set_apply] at hw
  split_ifs at hw with hi
  · rw [hi]
    exact hid
  · exact (h.dominates i w hw).trans hc

theorem Counter.raisedLast (h : c.Counter) {id : Id} (hid : id.Unsigned) : (c.raisedLast id).Unsigned ∧
    c.last.bits.toNat ≤ (c.raisedLast id).bits.toNat ∧ id.bits.toNat ≤ (c.raisedLast id).bits.toNat := by
  have hgt := Long.gt_iff_of_unsigned hid h.unsigned
  rw [BitVec.lt_def] at hgt
  unfold Collection.raisedLast
  split_ifs with hi
  · exact ⟨hid,(hgt.mp hi).le,le_rfl⟩
  · exact ⟨h.unsigned,le_rfl,Nat.le_of_not_lt (fun hlt => hi (hgt.mpr hlt))⟩

variable [JsValue T]

theorem preserves_propagateUpdate (u : Update T) : Preserves Counter (propagateUpdate u) := by
  intro c hc
  obtain ⟨ixs,he⟩ := propagateUpdate_frame u c
  rw [he]
  exact ⟨hc.unsigned,hc.dominates⟩

theorem Counter.add (h : c.Counter) (ht : c.last.bits ≠ BitVec.allOnes 64) (v : T) : (add v c).state.Counter := by
  rw [add_apply]
  have hle : c.last.bits.toNat ≤ c.nextId.bits.toNat := by
    rw [nextId_toNat ht]
    omega
  have hu : c.nextId.Unsigned := h.unsigned
  exact Preserves.bind (preserves_propagateUpdate _) (fun _ => .pure _) _ (h.written hu hle le_rfl v)

theorem preserves_delete (id : Id) : Preserves Counter (delete id : Procedure (Exception T) (Collection T) (Option T)) := by
  refine .bind (.read _) ?_
  intro oldValue
  cases oldValue with
  | none => exact .pure _
  | some oldValue =>
    refine .bind ?_ (fun _ => .bind (preserves_propagateUpdate _) (fun _ => .pure _))
    intro c hc
    refine ⟨hc.unsigned,?_⟩
    intro i v hv
    have hv' : c.contents.erase id.bits i = some v := by rwa [← find_delete_eq]
    exact hc.dominates i v (PartialMap.sub_erase _ _ i v hv')

theorem preserves_set {id : Id} (hid : id.Unsigned) (v : T) : Preserves Counter (set id v) := by
  intro c hc
  obtain ⟨hu,hle,hle'⟩ := hc.raisedLast hid
  rw [set_apply]
  exact preserves_propagateUpdate _ _ (hc.written hu hle hle' v)

theorem preserves_putBack {I : Collection T → Prop} {Ret : Type} {id : Id}
    (hs : ∀ v : T, JsValue.truthy v = true → Preserves I (set id v)) (r : Option T × Ret) :
    Preserves I (putBack id r) := by
  obtain ⟨post,ret⟩ := r
  cases post with
  | none => exact .pure _
  | some v =>
    unfold putBack
    cases hv : JsValue.truthy v with
    | false => simpa [hv] using Preserves.pure ret
    | true => simpa [hv] using Preserves.bind (hs v hv) (fun _ => Preserves.pure ret)

theorem preserves_alter {I : Collection T → Prop} {Ret : Type} {id : Id}
    (hd : Preserves I (delete id : Procedure (Exception T) (Collection T) (Option T)))
    (hs : ∀ v : T, JsValue.truthy v = true → Preserves I (set id v)) (f : Option T → Option T × Ret) :
    Preserves I (alter id f) := by
  intro c hc
  cases ht : JsValue.truthyOption (c.get id) with
  | false =>
    rw [alter_keep f ht]
    exact preserves_putBack hs _ c hc
  | true =>
    have hdc := hd c hc
    cases ho : delete id c with
    | returned old c' =>
      rw [ho] at hdc
      rw [alter_drop f ht ho]
      exact preserves_putBack hs _ c' hdc
    | thrown e c' =>
      rw [ho] at hdc
      rw [alter_thrown f ht ho]
      exact hdc

theorem preserves_exec {I : Collection T → Prop}
    (hreg : ∀ e : UnregisteredIndex T, Preserves I (registerIndex e))
    (hadd : ∀ v : T, JsValue.Defined v → Preserves I (add v))
    (hset : ∀ id (v : T), JsValue.Defined v → Preserves I (set id v))
    (hdel : ∀ id, Preserves I (delete id : Procedure (Exception T) (Collection T) (Option T)))
    {call : Call T} (hd : call.DefinedValues) : Preserves I call.exec := by
  have hput (id : Id) (v : T) (hv : JsValue.truthy v = true) : Preserves I (set id v) :=
    hset id v (JsValue.defined_of_truthy v hv)
  cases call with
  | registerIndex e =>
    intro c hc
    rw [state_exec_registerIndex]
    exact hreg e c hc
  | add v => exact .bind (hadd v hd) (fun _ => .pure _)
  | set id v => exact hset id v hd
  | delete id => exact .bind (hdel id) (fun _ => .pure _)
  | alter id f => exact .bind (preserves_alter (hdel id) (hput id) f) (fun _ => .pure _)
  | adjust id f => exact preserves_alter (hdel id) (hput id) (Call.adjusted f)

theorem alter_exprs {Ret : Type} (id : Id) (f : Option T → Option T × Ret) (c : Collection T) :
    (alter id f c).state.exprs = c.exprs :=
  preserves_alter (I := fun c' => c'.exprs = c.exprs) (fun c' hc' => (delete_exprs id c').trans hc')
    (fun v _ c' hc' => (set_exprs id v c').trans hc') f c rfl

theorem Counter.registerIndex (h : c.Counter) (e : UnregisteredIndex T) : (registerIndex e c).state.Counter := by
  unfold Collection.registerIndex
  split
  · exact h
  · exact ⟨h.unsigned,h.dominates⟩

theorem Counter.exec (h : c.Counter) (call : Call T) (hu : call.UnsignedIds) (hb : call.BelowTop c) :
    (call.exec c).state.Counter := by
  cases call with
  | registerIndex e =>
    rw [state_exec_registerIndex]
    exact h.registerIndex e
  | add v =>
    rw [Call.exec,Procedure.bind_pure_state]
    exact h.add hb v
  | set id v => exact preserves_set hu v c h
  | delete id => exact Preserves.bind (preserves_delete id) (fun _ => .pure _) c h
  | alter id f =>
    exact Preserves.bind (preserves_alter (preserves_delete id) (fun v _ => preserves_set hu v) f) (fun _ => .pure _) c h
  | adjust id f => exact preserves_alter (preserves_delete id) (fun v _ => preserves_set hu v) (Call.adjusted f) c h

theorem Counter.admissible (h : c.Counter) {call : Call T} (hc : call.Ordinary c) :
    call.Admissible Id.Unsigned c := by
  cases call with
  | registerIndex e => trivial
  | add v => exact ⟨hc.defined,h.unsigned,h.nextId_fresh hc.below⟩
  | set id v => exact ⟨hc.defined,hc.unsigned⟩
  | delete id => exact hc.unsigned
  | alter id f => exact hc.unsigned
  | adjust id f => exact hc.unsigned

theorem Counter.proper (h : c.Counter) {call : Call T} (hc : call.Ordinary c) : call.Proper c := by
  refine ⟨hc.defined,?_⟩
  cases call with
  | add v => exact h.nextId_fresh hc.below
  | _ => trivial

theorem counter_step {c c' : Collection T} {call : Call T} (hc : c.Counter) (hok : call.Ordinary c)
    (hr : call.exec c = .returned () c') : c'.Counter := by
  have he := hc.exec call hok.unsigned hok.below
  rwa [hr] at he

theorem reached_admissible (h : Reached Call.exec Call.Ordinary new c) :
    Reached Call.exec (Call.Admissible Id.Unsigned) new c :=
  h.weaken counter_new (fun _ _ _ => counter_step) (fun _ _ hc hok => hc.admissible hok)

theorem reached_proper (h : Reached Call.exec Call.Ordinary new c) : Reached Call.exec Call.Proper new c :=
  h.weaken counter_new (fun _ _ _ => counter_step) (fun _ _ hc hok => hc.proper hok)

theorem admissible_consistent {P : Id → Prop} (hPu : ∀ id : Id, id.Unsigned → P id)
    (h : Reached Call.exec (Call.Admissible P) new c) : c.Consistent P := by
  refine h.invariant (consistent_new P) ?_
  intro c c' call hc hok hr
  rcases Call.exec_cases hPu hc call hok with ⟨_,c₁,hr',hc'⟩ | ⟨_,id,c₁,hr'⟩
  · rw [hr] at hr'
    cases hr'
    exact hc'
  · rw [hr] at hr'
    cases hr'

theorem ordinary_consistent (h : Reached Call.exec Call.Ordinary new c) : c.Consistent Id.Unsigned :=
  admissible_consistent (fun _ hid => hid) (reached_admissible h)

theorem proper_consistent (h : Reached Call.exec Call.Proper new c) : c.Consistent (fun _ => True) := by
  refine admissible_consistent (fun _ _ => trivial) ?_
  exact h.mono (fun _ _ hok => hok.admissible)

end Collection

end ComposableIndexes
