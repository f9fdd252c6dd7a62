import ComposableIndexes.Properties.Totals

namespace ComposableIndexes

open RegisteredIndex (Tracks receive)

namespace Collection

variable {T : Type} [JsValue T] {c c' : Collection T} {id : Id} {v : T}

def HoldsUndefined (c : Collection T) (id : Id) : Prop := ∃ w, c.contents id.bits = some w ∧ JsValue.isUndefined w = true

instance (c : Collection T) (id : Id) : Decidable (c.HoldsUndefined id) :=
  decidable_of_iff ((c.contents id.bits).any JsValue.isUndefined = true) (Option.any_eq_true _ _)

theorem get_of_spared (h : ¬c.HoldsUndefined id) : c.get id = c.contents id.bits := by
  cases hi : c.contents id.bits with
  | none =>
    have hf : c.store.find id.bits = none := hi
    rw [get,IdMap.find_eq_get,hf,Option.bind_none]
  | some w =>
    refine get_of_contents hi ?_
    cases hu : JsValue.isUndefined w with
    | false => exact hu
    | true => exact absurd ⟨w,hi,hu⟩ h

theorem get_of_undefined (h : c.HoldsUndefined id) : c.get id = none := by
  obtain ⟨w,hw,hu⟩ := h
  have hf : c.store.find id.bits = some w := hw
  rw [get,IdMap.find_eq_get,hf,Option.bind_some,JsValue.orUndefined,if_pos hu]

end Collection

namespace Call

variable {T : Type} [JsValue T]

-- An `add` takes a free id and a `set` does not address an id under which `undefined` is stored.
def SparesUndefined (c : Collection T) : Call T → Prop
  | .registerIndex _ => True
  | .add _ => c.contents c.nextId.bits = none
  | .set id _ => ¬c.HoldsUndefined id
  | .delete _ => True
  | _ => False

instance (c : Collection T) : (call : Call T) → Decidable (call.SparesUndefined c)
  | .add _ => inferInstanceAs (Decidable (c.contents c.nextId.bits = none))
  | .set id _ => inferInstanceAs (Decidable (¬c.HoldsUndefined id))
  | .registerIndex _ | .delete _ => .isTrue trivial
  | .alter _ _ | .adjust _ _ => .isFalse not_false

def Unconstrained : Call T → Prop
  | .registerIndex uIndex => uIndex.NoUnique
  | _ => True

end Call

namespace Collection

variable {T : Type} [JsValue T] {c c' : Collection T} {id : Id} {v : T}

def Tracking (c : Collection T) : Prop := ∀ ix ∈ c.indexes, ix.Tracks (fun _ => True) c.contents

theorem Tracking.propagate (h : c.Tracking) {u : Update T} (hu : u.ValidAt c.contents) (last : Id) {store : IdMap T}
    (hst : store.find = u.apply c.contents)
    (hr : propagateUpdate u { c with last := last, store := store } = .returned () c') : c'.Tracking := by
  by_cases hn : c.Clash c.contents u
  · obtain ⟨c₁,hthrow,_⟩ := propagate_thrown h hu trivial last store hn
    rw [hthrow] at hr
    cases hr
  · obtain ⟨c₁,hret,ht,_⟩ := propagate_tracks h hu trivial last hst hn
    rw [hret] at hr
    cases hr
    exact ht

theorem setUpdate_spared (h : ¬c.HoldsUndefined id) (v : T) : (c.setUpdate id v).ValidAt c.contents := by
  have hg := get_of_spared h
  unfold setUpdate
  cases hi : c.get id with
  | none =>
    rw [hi] at hg
    exact hg.symm
  | some w =>
    rw [hi] at hg
    exact hg.symm

theorem Tracking.add (h : c.Tracking) (hf : c.contents c.nextId.bits = none) (hr : add v c = .returned id c') :
    c'.Tracking :=
  h.propagate (u := .add c.nextId v) hf _ (find_set_eq c c.nextId v) (propagated_of_add hr)

theorem Tracking.set (h : c.Tracking) (hs : ¬c.HoldsUndefined id) (hr : set id v c = .returned () c') : c'.Tracking := by
  rw [set_apply] at hr
  refine h.propagate (setUpdate_spared hs v) _ ?_ hr
  rw [find_set_eq,setUpdate_apply]

theorem delete_valid {w : T} (hg : c.get id = some w) : (Update.delete id w).ValidAt c.contents := by
  by_cases hu : c.HoldsUndefined id
  · rw [get_of_undefined hu] at hg
    cases hg
  · exact (get_of_spared hu).symm.trans hg

theorem Tracking.delete (h : c.Tracking) {old : Option T} (hr : delete id c = .returned old c') : c'.Tracking := by
  rcases delete_cases hr with ⟨_,rfl⟩ | ⟨w,hg,hp⟩
  · exact h
  · exact h.propagate (delete_valid hg) c.last (find_delete_eq c id) hp

theorem Tracking.registerIndex (h : c.Tracking) {e : UnregisteredIndex T} {ix : RegisteredIndex T}
    (hr : registerIndex e c = .returned ix c') : c'.Tracking := by
  rcases registerIndex_cases (P := fun _ => True) (fun _ _ => trivial) e c with ⟨s,log,hret,ht⟩ | ⟨R,i,w,_,hthrow⟩
  · rw [hret] at hr
    cases hr
    intro ix' hix
    rcases List.mem_append.mp hix with hix | hix
    · exact h ix' hix
    · rw [List.mem_singleton.mp hix]
      exact ht
  · rw [hthrow] at hr
    cases hr

theorem Tracking.exec (h : c.Tracking) {call : Call T} (hc : call.SparesUndefined c) (hr : call.exec c = .returned () c') :
    c'.Tracking := by
  cases call with
  | registerIndex e =>
    obtain ⟨ix,ho⟩ := registered_of_exec hr
    exact h.registerIndex ho
  | add v =>
    obtain ⟨_,ha⟩ := Procedure.returned_of_bind_pure hr
    exact h.add hc ha
  | set id v => exact h.set hc hr
  | delete id =>
    obtain ⟨_,hd⟩ := Procedure.returned_of_bind_pure hr
    exact h.delete hd
  | alter id f => exact hc.elim
  | adjust id f => exact hc.elim

theorem reached_tracking (h : Reached Call.exec Call.SparesUndefined new c) : c.Tracking :=
  h.invariant (by simp [Tracking,new]) (fun _ _ _ ht hok hr => ht.exec hok hr)

def CountRight (c : Collection T) : Prop :=
  ∀ (s : ℤ) log, (⟨.aggregate countIndex,s,log⟩ : RegisteredIndex T) ∈ c.indexes →
    (countIndex : UnregisteredAggregateIndex T ℤ).value s = c.toList.length

omit [JsValue T] in
theorem Tracking.countRight (h : c.Tracking) : c.CountRight := by
  intro s log hix
  have hs : FoldIndex.Holds (countArgs T) c.contents s := (h _ hix).holds
  have hv : c.contents.values = (c.toList.map Prod.snd : List T) := c.values_toList
  have ht := hs (countArgs_lawful T)
  rw [hv] at ht
  have hcount : s = (c.toList.map Prod.snd).foldl (countArgs T).add (countArgs T).init := ht
  rw [foldl_countArgs,List.length_map] at hcount
  exact hcount

omit [JsValue T] in
theorem length_toList (c : Collection T) : c.toList.length = Multiset.card c.contents.values := by
  rw [values_toList,Multiset.coe_card,List.length_map]

omit [JsValue T] in
theorem counted_once_more {ctx : IndexContext T} {s : ℤ} {log : List (Update T)} {ix' : RegisteredIndex T}
    (hr : receive ctx (.add id v) ⟨.aggregate countIndex,s,log⟩ = .returned () ix') :
    ix' = ⟨.aggregate countIndex,(s + 1 : ℤ),log ++ [.add id v]⟩ := by
  cases hr
  rfl

-- Announced as an addition, the overwriting of a present item is counted as one more item.
theorem overwritten_as_added (hcount : c.CountRight) {s : ℤ} {log : List (Update T)}
    (hix : (⟨.aggregate countIndex,s,log⟩ : RegisteredIndex T) ∈ c.indexes) {w : T}
    (hw : c.contents id.bits = some w) {last : Id}
    (hr : propagateUpdate (.add id v) { c with last := last, store := c.store.set id v } = .returned () c') :
    ¬c'.CountRight := by
  intro hcount'
  obtain ⟨ix',hix',hrec⟩ := exists_sender (propagateUpdate_receives hr).flip hix
  rw [counted_once_more hrec] at hix'
  have hst : c'.store = c.store.set id v := store_of_propagated hr
  have hlen : c'.toList.length = c.toList.length := by
    rw [length_toList,length_toList,contents,hst,find_set_eq,PartialMap.card_values_set hw]
  have h₁ : s = c.toList.length := hcount s log hix
  have h₂ : s + 1 = c'.toList.length := hcount' _ _ hix'
  omega

theorem set_countRight_iff (ht : c.Tracking) {s : ℤ} {log : List (Update T)}
    (hix : (⟨.aggregate countIndex,s,log⟩ : RegisteredIndex T) ∈ c.indexes) (hr : set id v c = .returned () c') :
    c'.CountRight ↔ ¬c.HoldsUndefined id := by
  constructor
  · intro hcount hu
    have hupd : c.setUpdate id v = .add id v := by
      rw [setUpdate,get_of_undefined hu]
    rw [set_apply,hupd] at hr
    obtain ⟨w,hw,_⟩ := hu
    exact overwritten_as_added ht.countRight hix hw hr hcount
  · exact fun hs => (ht.set hs hr).countRight

theorem add_countRight_iff (ht : c.Tracking) {s : ℤ} {log : List (Update T)}
    (hix : (⟨.aggregate countIndex,s,log⟩ : RegisteredIndex T) ∈ c.indexes) (hr : add v c = .returned id c') :
    c'.CountRight ↔ c.contents c.nextId.bits = none := by
  constructor
  · intro hcount
    cases hw : c.contents c.nextId.bits with
    | none => rfl
    | some w => exact absurd hcount (overwritten_as_added ht.countRight hix hw (propagated_of_add hr))
  · exact fun hf => (ht.add hf hr).countRight

theorem delete_clears_iff {old : Option T} (hr : delete id c = .returned old c') :
    (∀ p ∈ c'.toList, p.1.bits ≠ id.bits) ↔ ¬c.HoldsUndefined id := by
  constructor
  · rintro hno hu
    rw [delete_absent (get_of_undefined hu)] at hr
    cases hr
    obtain ⟨w,hw,_⟩ := hu
    exact hno (Id.fromLong ⟨id.bits,true⟩,w) (mem_toList.mpr ⟨rfl,hw⟩) rfl
  · intro hs
    have hg := get_of_spared hs
    rintro ⟨a,w⟩ hp hb
    obtain ⟨_,hw⟩ := mem_toList.mp hp
    have hb' : a.bits = id.bits := hb
    rw [hb'] at hw
    rcases delete_cases hr with ⟨hv,rfl⟩ | ⟨x,_,hp⟩
    · rw [← hg,hv] at hw
      cases hw
    · have hst : c'.store = c.store.delete id := store_of_propagated hp
      rw [contents,hst,find_delete_eq,PartialMap.erase_self] at hw
      cases hw

theorem Tracking.propagate_returns (h : c.Tracking) (hn : ∀ ix ∈ c.indexes, ix.expr.NoUnique) {u : Update T}
    (hu : u.ValidAt c.contents) (last : Id) {store : IdMap T} (hst : store.find = u.apply c.contents) :
    ∃ c', propagateUpdate u { c with last := last, store := store } = .returned () c' := by
  have hno : ¬c.Clash c.contents u := by
    rintro ⟨ix,hix,hcl⟩
    exact ix.expr.not_clashes_of_noUnique (hn ix hix) _ u hcl
  obtain ⟨c',hret,_⟩ := propagate_tracks h hu trivial last hst hno
  exact ⟨c',hret⟩

theorem Tracking.exec_returns (h : c.Tracking) (hn : ∀ ix ∈ c.indexes, ix.expr.NoUnique) {call : Call T}
    (hc : call.SparesUndefined c) (hu : call.Unconstrained) : (call.exec c).Returns := by
  cases call with
  | registerIndex e =>
    rcases registerIndex_cases (P := fun _ => True) (fun _ _ => trivial) e c with ⟨s,log,hret,_⟩ | ⟨R,i,w,ho,_⟩
    · exact ⟨(),_,by simp only [Call.exec,hret]; rfl⟩
    · exact absurd (.inl ho.rejects) (e.not_clashes_of_noUnique hu R _)
  | add v =>
    obtain ⟨c',hp⟩ := h.propagate_returns hn (u := .add c.nextId v) hc c.nextId (find_set_eq c c.nextId v)
    have ha : Collection.add v c = .returned c.nextId c' := by
      rw [add_apply]
      exact Procedure.bind_returned hp
    exact ⟨(),c',Procedure.bind_returned ha⟩
  | set id v =>
    have hst : (c.store.set id v).find = (c.setUpdate id v).apply c.contents := by
      rw [find_set_eq,setUpdate_apply]
    obtain ⟨c',hp⟩ := h.propagate_returns hn (setUpdate_spared hc v) (c.raisedLast id) hst
    exact ⟨(),c',by rw [Call.exec,set_apply]; exact hp⟩
  | delete id =>
    cases hg : c.get id with
    | none => exact ⟨(),c,Procedure.bind_returned (delete_absent hg)⟩
    | some w =>
      obtain ⟨c',hp⟩ := h.propagate_returns hn (delete_valid hg) c.last (find_delete_eq c id)
      have hd : Collection.delete id c = .returned (some w) c' := by
        rw [delete_apply hg]
        exact Procedure.bind_returned hp
      exact ⟨(),c',Procedure.bind_returned hd⟩
  | alter id f => exact hc.elim
  | adjust id f => exact hc.elim

def Counting (c : Collection T) : Prop := ∃ (s : ℤ) (log : _), (⟨.aggregate countIndex,s,log⟩ : RegisteredIndex T) ∈ c.indexes

theorem count_and_deletion_exact (h : Reached Call.exec Call.SparesUndefined new c) :
    c.CountRight ∧
    (c.Counting → ∀ id v c', set id v c = .returned () c' → (c'.CountRight ↔ ¬c.HoldsUndefined id)) ∧
    (c.Counting → ∀ id v c', add v c = .returned id c' → (c'.CountRight ↔ c.contents c.nextId.bits = none)) ∧
    (∀ id old c', delete id c = .returned old c' →
      c'.CountRight ∧ ((∀ p ∈ c'.toList, p.1.bits ≠ id.bits) ↔ ¬c.HoldsUndefined id)) ∧
    ((∀ ix ∈ c.indexes, ix.expr.NoUnique) → ∀ call : Call T, call.SparesUndefined c → call.Unconstrained →
      (call.exec c).Returns) := by
  have ht := reached_tracking h
  refine ⟨ht.countRight,?_,?_,?_,?_⟩
  · rintro ⟨s,log,hix⟩ id v c' hr
    exact set_countRight_iff ht hix hr
  · rintro ⟨s,log,hix⟩ id v c' hr
    exact add_countRight_iff ht hix hr
  · intro id old c' hr
    exact ⟨(ht.delete hr).countRight,delete_clears_iff hr⟩
  · intro hn call hc hu
    exact ht.exec_returns hn hc hu

def optionalCalls : List (Call (Option ℕ)) :=
  [.registerIndex (.aggregate countIndex),.add none,.add (some 5),.set (Id.fromLong ⟨7,true⟩) none,
    .set (Id.fromLong ⟨2,true⟩) (some 6),.delete (Id.fromLong ⟨2,true⟩)]

def optional : Collection (Option ℕ) := (Procedure.play Call.exec optionalCalls new).2

theorem optional_reached : Reached Call.exec Call.SparesUndefined new optional :=
  Procedure.reached_play optionalCalls .start (by decide)

theorem undefined_items_counted : optional.HoldsUndefined (Id.fromLong ⟨7,true⟩) ∧ optional.toList.length = 2 ∧
    ∃ (s : ℤ) (log : _), (⟨.aggregate countIndex,s,log⟩ : RegisteredIndex (Option ℕ)) ∈ optional.indexes ∧
      (countIndex : UnregisteredAggregateIndex (Option ℕ) ℤ).value s = optional.toList.length :=
  ⟨by decide,by decide,_,_,List.mem_singleton.mpr rfl,
    (count_and_deletion_exact optional_reached).1 _ _ (List.mem_singleton.mpr rfl)⟩

def firstUndefined : List (Call (Option ℕ)) := [.registerIndex (.aggregate countIndex),.add none]

theorem undefined_item_counted_twice_and_kept :
    Procedure.Accepted Call.exec (fun c call => call.UnsignedIds ∧ call.BelowTop c)
      (firstUndefined ++ [.set (Id.fromLong ⟨1,true⟩) (some 5)]) new ∧
    ¬(Procedure.play Call.exec (firstUndefined ++ [.set (Id.fromLong ⟨1,true⟩) (some 5)]) new).2.CountRight ∧
    Procedure.Accepted Call.exec (fun c call => call.UnsignedIds ∧ call.BelowTop c)
      (firstUndefined ++ [.delete (Id.fromLong ⟨1,true⟩)]) new ∧
    ∃ p ∈ (Procedure.play Call.exec (firstUndefined ++ [.delete (Id.fromLong ⟨1,true⟩)]) new).2.toList, p.1.bits = 1 := by
  refine ⟨by decide,?_,by decide,by decide⟩
  intro hcount
  have h := hcount _ _ (List.mem_singleton.mpr rfl)
  exact absurd h (by decide)

end Collection

end ComposableIndexes
