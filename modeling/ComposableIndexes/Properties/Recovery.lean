import ComposableIndexes.Abstract.Delivery
import ComposableIndexes.Abstract.Table
import ComposableIndexes.Properties.Adequacy
import ComposableIndexes.Properties.Alter

namespace ComposableIndexes

open RegisteredIndex (Tracks)

namespace Collection

variable {T : Type} [JsValue T] {n : ℕ} {e : UnregisteredIndex T} {c c' : Collection T} {id : Id} {v : T}

-- The index that was registered after `n` others follows the store, whatever has become of those.
def TracksAt (n : ℕ) (e : UnregisteredIndex T) (c : Collection T) : Prop :=
  ∃ s log, c.indexes[n]? = some ⟨e,s,log⟩ ∧ Tracks Id.Unsigned c.contents ⟨e,s,log⟩

theorem TracksAt.propagate (h : c.TracksAt n e) {u : Update T} (hu : u.ValidAt c.contents) (hid : u.id.Unsigned) (last : Id)
    {store : IdMap T} (hst : store.find = u.apply c.contents)
    (hr : propagateUpdate u { c with last := last, store := store } = .returned () c') : c'.TracksAt n e := by
  obtain ⟨s,log,hix,ht⟩ := h
  have hs : c'.store = store := store_of_propagated hr
  obtain ⟨ix',hix',hrec⟩ := receiver_at (propagateUpdate_receives hr) hix
  have hn : ¬e.Clashes c.contents u := by
    intro hcl
    obtain ⟨ix₁,hthrow⟩ := RegisteredIndex.receive_thrown _ ht hu hid hcl
    rw [hthrow] at hrec
    cases hrec
  obtain ⟨s',hret,ht'⟩ := RegisteredIndex.receive_returned _ ht hu hid hn
  rw [hret] at hrec
  cases hrec
  refine ⟨s',_,hix',?_⟩
  rw [contents,hs,hst]
  exact ht'

theorem TracksAt.add (h : c.TracksAt n e) (hu : c.nextId.Unsigned) (hf : c.contents c.nextId.bits = none)
    (hr : add v c = .returned id c') : c'.TracksAt n e :=
  h.propagate (u := .add c.nextId v) hf hu _ (find_set_eq c c.nextId v) (propagated_of_add hr)

theorem TracksAt.set (h : c.TracksAt n e) (hd : c.DefinedStore) (hid : id.Unsigned) (hr : set id v c = .returned () c') :
    c'.TracksAt n e := by
  rw [set_apply] at hr
  refine h.propagate (setUpdate_validAt hd id v) ?_ _ ?_ hr
  · rwa [setUpdate_id]
  · rw [find_set_eq,setUpdate_apply]

theorem TracksAt.delete (h : c.TracksAt n e) (hd : c.DefinedStore) (hid : id.Unsigned) {old : Option T}
    (hr : delete id c = .returned old c') : c'.TracksAt n e := by
  rcases delete_cases hr with ⟨_,rfl⟩ | ⟨w,hw,hp⟩
  · exact h
  · refine h.propagate (u := .delete id w) ?_ hid c.last (find_delete_eq c id) hp
    exact (get_eq hd id).symm.trans hw

theorem TracksAt.putBack (h : c.TracksAt n e) (hd : c.DefinedStore) (hid : id.Unsigned) {Ret : Type} {r : Option T × Ret}
    {ret : Ret} (hr : putBack id r c = .returned ret c') : c'.TracksAt n e := by
  obtain ⟨post,ret'⟩ := r
  cases post with
  | none =>
    cases hr
    exact h
  | some v =>
    unfold Collection.putBack at hr
    cases ht : JsValue.truthy v with
    | false =>
      simp only [ht,Bool.false_eq_true,if_false] at hr
      cases hr
      exact h
    | true =>
      simp only [ht,if_true] at hr
      obtain ⟨_,hs⟩ := Procedure.returned_of_bind_pure hr
      exact h.set hd hid hs

theorem TracksAt.alter (h : c.TracksAt n e) (hd : c.DefinedStore) (hid : id.Unsigned) {Ret : Type}
    {f : Option T → Option T × Ret} {ret : Ret} (hr : alter id f c = .returned ret c') : c'.TracksAt n e := by
  cases ht : JsValue.truthyOption (c.get id) with
  | false =>
    rw [alter_keep f ht] at hr
    exact h.putBack hd hid hr
  | true =>
    cases hdel : Collection.delete id c with
    | thrown x c₁ =>
      rw [alter_thrown f ht hdel] at hr
      cases hr
    | returned old c₁ =>
      rw [alter_drop f ht hdel] at hr
      refine (h.delete hd hid hdel).putBack ?_ hid hr
      have hS := delete_contents hd id
      rw [hdel] at hS
      have hS' : c₁.contents = c.contents.erase id.bits := hS
      intro i w hw
      rw [hS'] at hw
      exact hd i w (PartialMap.sub_erase _ _ i w hw)

theorem TracksAt.registerIndex (h : c.TracksAt n e) {e₁ : UnregisteredIndex T} {ix : RegisteredIndex T}
    (hr : registerIndex e₁ c = .returned ix c') : c'.TracksAt n e := by
  obtain ⟨s,log,hix,ht⟩ := h
  obtain ⟨hix',hst⟩ := getElem_registered hr hix
  refine ⟨s,log,hix',?_⟩
  rwa [contents,hst]

theorem TracksAt.exec (h : c.TracksAt n e) (hd : c.DefinedStore) (hcount : c.Counter) {call : Call T} (hok : call.Ordinary c)
    (hr : call.exec c = .returned () c') : c'.TracksAt n e := by
  cases call with
  | registerIndex e₁ =>
    obtain ⟨ix,ho⟩ := registered_of_exec hr
    exact h.registerIndex ho
  | add v =>
    obtain ⟨_,ha⟩ := Procedure.returned_of_bind_pure hr
    exact h.add hcount.unsigned (hcount.nextId_fresh hok.below) ha
  | set id v => exact h.set hd hok.unsigned hr
  | delete id =>
    obtain ⟨_,hdel⟩ := Procedure.returned_of_bind_pure hr
    exact h.delete hd hok.unsigned hdel
  | alter id f =>
    obtain ⟨_,ha⟩ := Procedure.returned_of_bind_pure hr
    exact h.alter hd hok.unsigned ha
  | adjust id f => exact h.alter (f := Call.adjusted f) hd hok.unsigned hr

theorem TracksAt.play (h : c.TracksAt n e) (hd : c.DefinedStore) (hcount : c.Counter) {calls : List (Call T)}
    (ha : Procedure.Accepted Call.exec Call.Ordinary calls c) :
    (Procedure.play Call.exec calls c).2.TracksAt n e ∧ (Procedure.play Call.exec calls c).2.DefinedStore := by
  induction calls generalizing c with
  | nil => exact ⟨h,hd⟩
  | cons call calls ih =>
    obtain ⟨hok,⟨_,c₁,he⟩,hrest⟩ := ha
    have hd₁ := preserves_definedStore_exec hok.defined c hd
    have hcount₁ := hcount.exec call hok.unsigned hok.below
    have hplay : (Procedure.play Call.exec (call :: calls) c).2 = (Procedure.play Call.exec calls (call.exec c).state).2 := rfl
    rw [hplay]
    rw [he] at hd₁ hcount₁ hrest ⊢
    exact ih (h.exec hd hcount hok he) hd₁ hcount₁ hrest

theorem counter_of_visited (h : Visited Call.exec Call.Ordinary new c) : c.Counter :=
  h.invariant counter_new (fun _ call hc hok => hc.exec call hok.unsigned hok.below)

def collidedCalls : List (Call ℕ) := [.registerIndex tensTree,.registerIndex (.premap some .uniqueHashIndex),.add 11,.add 11]

end Collection

end ComposableIndexes
