import ComposableIndexes.Abstract.Delivery
import ComposableIndexes.Properties.Alter
import ComposableIndexes.Properties.Holders
import ComposableIndexes.Properties.IdMaps

namespace ComposableIndexes

namespace Id

def TopClear (id : Id) : Prop := id.bits.msb = false

-- The ids that come back from the 32-bit halves as they went in, up to `equals`.
def Plain (id : Id) : Prop := id.Unsigned ∨ id.TopClear

instance (id : Id) : Decidable id.TopClear := inferInstanceAs (Decidable (id.bits.msb = false))

instance (id : Id) : Decidable id.Plain := inferInstanceAs (Decidable (id.Unsigned ∨ id.TopClear))

theorem equals_iff (a b : Id) :
    a.equals b = true ↔ a.bits = b.bits ∧ (a.asLong.unsigned = b.asLong.unsigned ∨ a.TopClear) :=
  a.asLong.equals_iff b.asLong

theorem equals_rebuilt {a b : Id} (ha : a.Unsigned) (hb : b.bits = a.bits) : a.equals b = true ↔ b.Plain := by
  have hu : a.asLong.unsigned = b.asLong.unsigned ↔ b.Unsigned := by
    rw [Unsigned] at ha
    rw [ha,Unsigned,eq_comm]
  have ht : a.TopClear ↔ b.TopClear := by
    rw [TopClear,TopClear,hb]
  rw [equals_iff,hu,ht,and_iff_right hb.symm,Plain]

-- Two ids address the same item: no run can tell them apart by what is stored under them.
def SameItem (T : Type) [JsValue T] (a b : Id) : Prop :=
  ∀ calls : List (Call T), (Procedure.play Call.exec calls Collection.new).2.get a =
    (Procedure.play Call.exec calls Collection.new).2.get b

theorem sameItem_iff {T : Type} [JsValue T] {v : T} (hv : JsValue.Defined v) (a b : Id) :
    SameItem T a b ↔ a.bits = b.bits := by
  constructor
  · intro h
    have hget (id : Id) : (Procedure.play Call.exec [.set a v] Collection.new).2.get id =
        if id.bits = a.bits then some v else Collection.new.get id := Collection.get_set_state hv a id _
    have hnone : (Collection.new : Collection T).get b = none := rfl
    have hab := h [.set a v]
    rw [hget,hget,if_pos rfl] at hab
    by_contra hne
    rw [if_neg (Ne.symm hne),hnone] at hab
    cases hab
  · intro h calls
    rw [Collection.get,Collection.get,IdMap.find_eq_get,IdMap.find_eq_get,h]

end Id

namespace Call

variable {T : Type}

def SetsOrDeletes : Call T → Prop
  | .registerIndex _ => True
  | .set _ _ => True
  | .delete _ => True
  | _ => False

instance : (call : Call T) → Decidable call.SetsOrDeletes
  | .registerIndex _ | .set _ _ | .delete _ => .isTrue trivial
  | .add _ | .alter _ _ | .adjust _ _ => .isFalse not_false

def setId : Call T → Option Id
  | .set id _ => some id
  | _ => none

def setIds (calls : List (Call T)) : List Id := calls.filterMap setId

-- The id under which the item that `id` addresses was last set.
def lastSet (calls : List (Call T)) (id : Id) : Option Id := (setIds calls).lastOn Id.bits id.bits

theorem lastSet_append {earlier later : List (Call T)} {id a : Id} (h : lastSet later id = some a) :
    lastSet (earlier ++ later) id = some a := by
  rw [lastSet,setIds,List.filterMap_append]
  exact List.lastOn_append_of_some h

-- `id` is the id under which its item was last set, or rebuilt from its halves if none of the calls has set the item.
def HeldAs (calls : List (Call T)) (id : Id) : Prop := (lastSet calls id).elim id.Unsigned (fun a => id = a)

theorem heldAs_set {calls : List (Call T)} {a id : Id} {v : T} (h : Reheld (HeldAs calls) a id) :
    HeldAs (calls ++ [.set a v]) id := by
  have hids : setIds (calls ++ [.set a v]) = setIds calls ++ [a] := List.filterMap_append
  rw [HeldAs,lastSet,hids,List.lastOn_append]
  rcases h with rfl | ⟨h,hne⟩
  · rw [if_pos rfl]
    rfl
  · rw [if_neg (Ne.symm hne)]
    exact h

theorem heldAs_other (calls : List (Call T)) (call : Call T) (hc : call.setId = none) :
    HeldAs (calls ++ [call]) = HeldAs calls := by
  have hids : setIds (calls ++ [call]) = setIds calls := by simp [setIds,hc]
  funext id
  rw [HeldAs,HeldAs,lastSet,lastSet,hids]

end Call

-- `id` addresses one of the items that were set, and is unsigned or itself one of the ids.
def SetUnder (ids : List Id) (id : Id) : Prop := (∃ a ∈ ids, a.bits = id.bits) ∧ (id.Unsigned ∨ id ∈ ids)

theorem rebuilds_setUnder (ids : List Id) : Rebuilds (SetUnder ids) := by
  rintro a b ⟨⟨l,hl,hb⟩,_⟩ hu hab
  exact ⟨⟨l,hl,hb.trans hab.symm⟩,.inl hu⟩

theorem SetUnder.append {ids : List Id} {id : Id} (h : SetUnder ids id) (more : List Id) :
    SetUnder (ids ++ more) id := by
  obtain ⟨⟨a,ha,hb⟩,hu⟩ := h
  exact ⟨⟨a,List.mem_append_left more ha,hb⟩,hu.imp_right (List.mem_append_left more)⟩

theorem setUnder_last (ids : List Id) (id : Id) : SetUnder (ids ++ [id]) id :=
  ⟨⟨id,by simp,rfl⟩,.inr (by simp)⟩

theorem SetUnder.last {T : Type} {calls : List (Call T)} {id : Id} (h : SetUnder (Call.setIds calls) id) :
    ∃ a, Call.lastSet calls id = some a ∧ a ∈ Call.setIds calls ∧ a.bits = id.bits := by
  obtain ⟨a,ha⟩ := List.exists_lastOn h.1
  exact ⟨a,ha,List.mem_of_lastOn ha,List.key_of_lastOn ha⟩

namespace Collection

variable {T : Type} [JsValue T] {c : Collection T} {ids : List Id}

structure WrittenUnder (ids : List Id) (c : Collection T) : Prop where
  stored : ∀ i v, c.contents i = some v → ∃ a ∈ ids, a.bits = i
  mentions : ∀ ix ∈ c.indexes, ix.Mentions (SetUnder ids)

omit [JsValue T] in
theorem WrittenUnder.append (h : c.WrittenUnder ids) (more : List Id) : c.WrittenUnder (ids ++ more) := by
  refine ⟨?_,?_⟩
  · intro i v hv
    obtain ⟨a,ha,hb⟩ := h.stored i v hv
    exact ⟨a,List.mem_append_left more ha,hb⟩
  · intro ix hix
    exact UnregisteredIndex.Mentions.imp (fun _ hid => hid.append more) ix.expr (h.mentions ix hix)

theorem WrittenUnder.propagate (h : c.WrittenUnder ids) {u : Update T} (hu : u.Takes (SetUnder ids)) (last : Id)
    {store : IdMap T} (hs : ∀ i v, store.find i = some v → ∃ a ∈ ids, a.bits = i) :
    (propagateUpdate u { c with last := last, store := store }).state.WrittenUnder ids := by
  refine ⟨?_,?_⟩
  · intro i v hv
    rw [contents,propagateUpdate_store] at hv
    exact hs i v hv
  · exact (propagateUpdate_confined (c := { c with last := last, store := store }) (rebuilds_setUnder ids) hu
      h.mentions).state

theorem WrittenUnder.set (h : c.WrittenUnder ids) (id : Id) (v : T) :
    (set id v c).state.WrittenUnder (ids ++ [id]) := by
  have h' := h.append [id]
  rw [set_apply]
  refine h'.propagate (Update.takes_of_id ?_) _ ?_
  · rw [setUpdate_id]
    exact setUnder_last ids id
  · intro i w hw
    rw [find_set_eq,PartialMap.set_apply] at hw
    split_ifs at hw with hi
    · exact ⟨id,by simp,hi.symm⟩
    · exact h'.stored i w hw

theorem WrittenUnder.delete (h : c.WrittenUnder ids) (id : Id) :
    (delete id c : Outcome (Exception T) (Collection T) (Option T)).state.WrittenUnder ids := by
  cases hv : c.get id with
  | none =>
    rw [delete_absent hv]
    exact h
  | some v =>
    rw [delete_apply hv,Procedure.bind_pure_state]
    refine h.propagate (u := .delete id v) trivial c.last ?_
    intro i w hw
    rw [find_delete_eq] at hw
    exact h.stored i w (PartialMap.sub_erase _ _ i w hw)

theorem WrittenUnder.registerIndex (h : c.WrittenUnder ids) (e : UnregisteredIndex T) :
    (registerIndex e c).state.WrittenUnder ids := by
  have hitems : ∀ p ∈ c.store.entries, SetUnder ids p.1 := by
    intro p hp
    obtain ⟨hu,hv⟩ := (c.store.mem_entries p.1 p.2).mp hp
    exact ⟨h.stored _ _ hv,.inl hu⟩
  have hnew : (RegisteredIndex.new e).Mentions (SetUnder ids) := (e.confined T (rebuilds_setUnder ids)).create
  have hr := RegisteredIndex.receiveAll_mentions (rebuilds_setUnder ids) c.context hitems hnew
  unfold Collection.registerIndex
  cases ho : RegisteredIndex.receiveAll c.context c.store.entries (.new e) with
  | thrown x ix => exact h
  | returned a ix =>
    rw [ho] at hr
    refine ⟨h.stored,?_⟩
    intro ix' hix
    rcases List.mem_append.mp hix with hix | hix
    · exact h.mentions ix' hix
    · rw [List.mem_singleton.mp hix]
      exact hr

theorem WrittenUnder.exec (h : c.WrittenUnder ids) {call : Call T} (hc : call.SetsOrDeletes) :
    (call.exec c).state.WrittenUnder (ids ++ Call.setIds [call]) := by
  cases call with
  | registerIndex e =>
    rw [show ids ++ Call.setIds [Call.registerIndex e] = ids from List.append_nil ids,state_exec_registerIndex]
    exact h.registerIndex e
  | set id v => exact h.set id v
  | delete id =>
    rw [show ids ++ Call.setIds [Call.delete id] = ids from List.append_nil ids,Call.exec,Procedure.bind_pure_state]
    exact h.delete id
  | add v => exact hc.elim
  | alter id f => exact hc.elim
  | adjust id f => exact hc.elim

theorem WrittenUnder.play (h : c.WrittenUnder ids) {calls : List (Call T)} (hc : ∀ call ∈ calls, call.SetsOrDeletes) :
    (Procedure.play Call.exec calls c).2.WrittenUnder (ids ++ Call.setIds calls) := by
  induction calls generalizing c ids with
  | nil =>
    rw [show ids ++ Call.setIds ([] : List (Call T)) = ids from List.append_nil ids]
    exact h
  | cons call calls ih =>
    obtain ⟨hcall,hcalls⟩ := List.forall_mem_cons.mp hc
    have hrest := ih (h.exec hcall) hcalls
    have hids : ids ++ Call.setIds [call] ++ Call.setIds calls = ids ++ Call.setIds (call :: calls) := by
      rw [List.append_assoc,Call.setIds,Call.setIds,← List.filterMap_append]
      rfl
    rw [hids] at hrest
    exact hrest

theorem writtenUnder_play {calls : List (Call T)} (hc : ∀ call ∈ calls, call.SetsOrDeletes) :
    (Procedure.play Call.exec calls new).2.WrittenUnder (Call.setIds calls) := by
  have hnew : (new : Collection T).WrittenUnder [] := ⟨by simp [contents,new],by simp [new]⟩
  exact hnew.play hc

-- The index registered after `n` others holds the ids that the calls since then have set.
def HeldSince (past : List (Call T)) (n : ℕ) (e : UnregisteredIndex T) (c : Collection T) : Prop :=
  ∃ s log, c.indexes[n]? = some ⟨e,s,log⟩ ∧ e.Holds (Call.HeldAs past) c.contents s

section HeldSince

variable {past : List (Call T)} {n : ℕ} {e : UnregisteredIndex T} {c' : Collection T} {id : Id} {v : T}

theorem HeldSince.propagate (h : c.HeldSince past n e) {u : Update T} (hu : u.ValidAt c.contents) (last : Id) {store : IdMap T}
    (hst : store.find = u.apply c.contents) (hr : propagateUpdate u { c with last := last, store := store } = .returned () c') :
    ∃ s log, c'.indexes[n]? = some ⟨e,s,log⟩ ∧ e.Holds (Reheld (Call.HeldAs past) u.id) c'.contents s := by
  obtain ⟨s,log,hix,hs⟩ := h
  obtain ⟨ix,hix',hrec⟩ := receiver_at (propagateUpdate_receives hr) hix
  obtain ⟨s',hd,rfl⟩ := RegisteredIndex.receive_delivers hrec
  refine ⟨s',_,hix',?_⟩
  rw [contents,store_of_propagated hr,hst]
  exact e.reholds _ T _ _ _ u _ hs hu hd

theorem HeldSince.set (h : c.HeldSince past n e) (hd : c.DefinedStore) (hr : set id v c = .returned () c') :
    c'.HeldSince (past ++ [.set id v]) n e := by
  rw [set_apply] at hr
  obtain ⟨s,log,hix,hs⟩ := h.propagate (setUpdate_validAt hd id v) _ (by rw [find_set_eq,setUpdate_apply]) hr
  rw [setUpdate_id] at hs
  exact ⟨s,log,hix,UnregisteredIndex.holds_imp hs (fun _ _ _ => Call.heldAs_set)⟩

theorem HeldSince.delete (h : c.HeldSince past n e) (hd : c.DefinedStore) {old : Option T}
    (hr : delete id c = .returned old c') : c'.HeldSince (past ++ [.delete id]) n e := by
  rw [HeldSince,Call.heldAs_other past (.delete id) rfl]
  rcases delete_cases hr with ⟨_,rfl⟩ | ⟨w,hw,hp⟩
  · exact h
  · have hv : c.contents id.bits = some w := (get_eq hd id).symm.trans hw
    obtain ⟨s,log,hix,hs⟩ := h.propagate (u := .delete id w) hv c.last (find_delete_eq c id) hp
    refine ⟨s,log,hix,UnregisteredIndex.holds_imp hs ?_⟩
    rintro a x hx (rfl | ⟨ha,_⟩)
    · rw [contents,store_of_propagated hp,find_delete_eq,PartialMap.erase_self] at hx
      cases hx
    · exact ha

theorem HeldSince.registerIndex (h : c.HeldSince past n e) {e₁ : UnregisteredIndex T} {ix : RegisteredIndex T}
    (hr : registerIndex e₁ c = .returned ix c') : c'.HeldSince (past ++ [.registerIndex e₁]) n e := by
  rw [HeldSince,Call.heldAs_other past (.registerIndex e₁) rfl]
  obtain ⟨s,log,hix,hs⟩ := h
  obtain ⟨hix',hst⟩ := getElem_registered hr hix
  refine ⟨s,log,hix',?_⟩
  rwa [contents,hst]

theorem HeldSince.exec (h : c.HeldSince past n e) (hd : c.DefinedStore) {call : Call T} (hc : call.SetsOrDeletes)
    (hr : call.exec c = .returned () c') : c'.HeldSince (past ++ [call]) n e := by
  cases call with
  | registerIndex e₁ =>
    obtain ⟨ix,ho⟩ := registered_of_exec hr
    exact h.registerIndex ho
  | set id v => exact h.set hd hr
  | delete id =>
    obtain ⟨_,hdel⟩ := Procedure.returned_of_bind_pure hr
    exact h.delete hd hdel
  | add v => exact hc.elim
  | alter id f => exact hc.elim
  | adjust id f => exact hc.elim

theorem HeldSince.play (h : c.HeldSince past n e) (hd : c.DefinedStore) {calls : List (Call T)}
    (ha : Procedure.Accepted Call.exec (fun _ call => call.SetsOrDeletes ∧ call.DefinedValues) calls c) :
    (Procedure.play Call.exec calls c).2.HeldSince (past ++ calls) n e := by
  induction calls generalizing c past with
  | nil =>
    rw [List.append_nil]
    exact h
  | cons call calls ih =>
    obtain ⟨⟨hc,hv⟩,⟨_,c₁,he⟩,hrest⟩ := ha
    have hd₁ := preserves_definedStore_exec hv c hd
    have hplay : (Procedure.play Call.exec (call :: calls) c).2 = (Procedure.play Call.exec calls (call.exec c).state).2 := rfl
    rw [hplay,List.append_cons past call calls]
    rw [he] at hd₁ hrest ⊢
    exact ih (h.exec hd hc he) hd₁ hrest

theorem definedStore_play {calls : List (Call T)} (h : ∀ call ∈ calls, call.DefinedValues) (hd : c.DefinedStore) :
    (Procedure.play Call.exec calls c).2.DefinedStore := by
  induction calls generalizing c with
  | nil => exact hd
  | cons call calls ih =>
    obtain ⟨hcall,hcalls⟩ := List.forall_mem_cons.mp h
    exact ih hcalls (preserves_definedStore_exec hcall c hd)

theorem heldSince_registered {later : List (Call T)} (hd : c.DefinedStore)
    (ha : Procedure.Accepted Call.exec (fun _ call => call.SetsOrDeletes ∧ call.DefinedValues) (.registerIndex e :: later) c) :
    (Procedure.play Call.exec (.registerIndex e :: later) c).2.HeldSince later c.indexes.length e := by
  obtain ⟨_,⟨_,c₁,he⟩,hrest⟩ := ha
  obtain ⟨ix,hr⟩ := registered_of_exec he
  have hplay : (Procedure.play Call.exec (.registerIndex e :: later) c).2 =
      (Procedure.play Call.exec later ((Call.registerIndex e).exec c).state).2 := rfl
  rw [hplay]
  rw [he] at hrest ⊢
  rcases registerIndex_cases (P := Id.Unsigned) (fun _ hid => hid) e c with ⟨s,log,h,ht⟩ | ⟨R,id,v,_,h⟩
  · rw [hr] at h
    cases h
    have hnew : ({ c with indexes := c.indexes ++ [⟨e,s,log⟩] } : Collection T).HeldSince [] c.indexes.length e :=
      ⟨s,log,by simp,ht.holds⟩
    exact hnew.play hd hrest
  · rw [hr] at h
    cases h

end HeldSince

omit [JsValue T] in
theorem forEach_ids (c : Collection T) : c.forEach (fun _ id (seen : List Id) => seen ++ [id]) [] = c.toList.map Prod.fst :=
  c.store.forEach_collects (fun _ id => id)

omit [JsValue T] in
theorem toList_lastSet {calls : List (Call T)} (hw : c.WrittenUnder (Call.setIds calls)) {p : Id × T} (hp : p ∈ c.toList) :
    ∃ a, Call.lastSet calls p.1 = some a ∧ (p.1.equals a = true ↔ a.Plain) := by
  obtain ⟨hu,hv⟩ := mem_toList.mp hp
  have hset : SetUnder (Call.setIds calls) p.1 := ⟨hw.stored _ _ hv,.inl hu⟩
  obtain ⟨a,ha,_,hb⟩ := hset.last
  exact ⟨a,ha,Id.equals_rebuilt hu hb⟩

omit [JsValue T] in
theorem item_lastSet {calls : List (Call T)} {id : Id} (h : SetUnder (Call.setIds calls) id) :
    ∃ a, Call.lastSet calls id = some a ∧ (id.Unsigned → (id.equals a = true ↔ a.Plain)) ∧
      (id.equals a = true ↔ id.asLong.unsigned = a.asLong.unsigned ∨ id.TopClear) := by
  obtain ⟨a,ha,_,hb⟩ := h.last
  refine ⟨a,ha,fun hu => Id.equals_rebuilt hu hb,?_⟩
  rw [Id.equals_iff,and_iff_right hb.symm]

omit [JsValue T] in
theorem heldAs_lastSet {earlier later : List (Call T)} {id : Id} (h : SetUnder (Call.setIds (earlier ++ later)) id)
    (hheld : Call.HeldAs later id) : ∃ a, Call.lastSet (earlier ++ later) id = some a ∧
      (∀ b, Call.lastSet later id = some b → id = a) ∧
      (Call.lastSet later id = none → (id.equals a = true ↔ a.Plain)) := by
  obtain ⟨a,ha,_,hb⟩ := h.last
  refine ⟨a,ha,?_,?_⟩
  · intro b hlast
    rw [Call.HeldAs,hlast] at hheld
    have hid : id = b := hheld
    rw [Call.lastSet_append hlast] at ha
    cases ha
    exact hid
  · intro hlast
    rw [Call.HeldAs,hlast] at hheld
    exact Id.equals_rebuilt hheld hb

theorem ids_keep_identity {v : T} (hv : JsValue.Defined v) :
    (∀ a b : Id, a.equals b = true ↔
      Id.SameItem T a b ∧ (a.asLong.unsigned = b.asLong.unsigned ∨ a.TopClear)) ∧
    (∀ calls : List (Call T), (∀ call ∈ calls, call.SetsOrDeletes) →
      (∀ p ∈ (Procedure.play Call.exec calls new).2.toList,
        ∃ a, Call.lastSet calls p.1 = some a ∧ (p.1.equals a = true ↔ a.Plain)) ∧
      (∀ id ∈ (Procedure.play Call.exec calls new).2.forEach (fun _ id (seen : List Id) => seen ++ [id]) [],
        ∃ a, Call.lastSet calls id = some a ∧ (id.equals a = true ↔ a.Plain)) ∧
      ∀ ix ∈ (Procedure.play Call.exec calls new).2.indexes, ∀ {R : Type} (q : Query T ix.expr R) (r : R),
        q.run (Procedure.play Call.exec calls new).2.context ix.state = .ok r → ∀ it ∈ q.items r,
        (it.id.Unsigned ∨ it.id ∈ Call.setIds calls) ∧ ∃ a, Call.lastSet calls it.id = some a ∧
          (¬q.AsksUnique → (it.id.equals a = true ↔ a.Plain)) ∧
          (it.id.equals a = true ↔ it.id.asLong.unsigned = a.asLong.unsigned ∨ it.id.TopClear)) ∧
    ∀ (earlier later : List (Call T)) (e : UnregisteredIndex T),
      (∀ call ∈ earlier, call.SetsOrDeletes ∧ call.DefinedValues) →
      Procedure.Accepted Call.exec (fun _ call => call.SetsOrDeletes ∧ call.DefinedValues) (.registerIndex e :: later)
        (Procedure.play Call.exec earlier new).2 →
      let calls := earlier ++ .registerIndex e :: later
      let final := (Procedure.play Call.exec calls new).2
      ∃ s log, final.indexes[(Procedure.play Call.exec earlier new).2.indexes.length]? = some ⟨e,s,log⟩ ∧
        ∀ {R : Type} (q : Query T e R) (r : R), q.AsksUnique → q.run final.context s = .ok r → ∀ it ∈ q.items r,
        ∃ a, Call.lastSet calls it.id = some a ∧ (∀ b, Call.lastSet later it.id = some b → it.id = a) ∧
          (Call.lastSet later it.id = none → (it.id.equals a = true ↔ a.Plain)) := by
  refine ⟨?_,?_,?_⟩
  · intro a b
    rw [Id.sameItem_iff hv,Id.equals_iff]
  · intro calls hc
    have hw := writtenUnder_play hc
    refine ⟨fun p hp => toList_lastSet hw hp,?_,?_⟩
    · intro id hid
      rw [forEach_ids] at hid
      obtain ⟨p,hp,rfl⟩ := List.mem_map.mp hid
      exact toList_lastSet hw hp
    · intro ix hix R q r hr it hit
      have hset := q.items_mentioned (hw.mentions ix hix) hr it hit
      obtain ⟨a,ha,hiff,hequals⟩ := item_lastSet hset
      exact ⟨hset.2,a,ha,fun hq => hiff (q.items_unsigned hq hr it hit),hequals⟩
  · intro earlier later e he ha calls final
    have hd : (Procedure.play Call.exec earlier new).2.DefinedStore :=
      definedStore_play (fun call hcall => (he call hcall).2) (by simp [DefinedStore,contents,new])
    have hfinal : final = (Procedure.play Call.exec (.registerIndex e :: later) (Procedure.play Call.exec earlier new).2).2 :=
      Procedure.play_append Call.exec earlier _ new
    have hheld := heldSince_registered hd ha
    rw [← hfinal] at hheld
    obtain ⟨s,log,hix,hs⟩ := hheld
    have hc : ∀ call ∈ calls, call.SetsOrDeletes := by
      intro call hcall
      rcases List.mem_append.mp hcall with hcall | hcall
      · exact (he call hcall).1
      · exact Procedure.accepted_forall (fun _ _ hok => hok.1) ha call hcall
    refine ⟨s,log,hix,?_⟩
    intro R q r hq hr it hit
    have hset := q.items_mentioned ((writtenUnder_play hc).mentions _ (List.mem_of_getElem? hix)) hr it hit
    have hheld : Call.HeldAs (.registerIndex e :: later) it.id := q.items_held hq hs hr it hit
    exact heldAs_lastSet hset hheld

def plainCalls : List (Call ℕ) :=
  [.registerIndex (.premap some .hashIndex),.set (Id.fromLong ⟨5,false⟩) 7,
    .set (Id.fromLong ⟨BitVec.allOnes 64,true⟩) 7,.delete (Id.fromLong ⟨5,true⟩),.set (Id.fromLong ⟨5,false⟩) 8]

def uniqueValues : UnregisteredIndex ℕ := .premap some .uniqueHashIndex

def lateCalls : List (Call ℕ) :=
  [.set (Id.fromLong ⟨5,false⟩) 6,.registerIndex uniqueValues,.set (Id.fromLong ⟨BitVec.allOnes 64,false⟩) 7]

theorem signed_id_comes_back_equal : (∃ a, Call.lastSet plainCalls (Id.fromLong ⟨5,true⟩) = some a ∧
    ((Id.fromLong ⟨5,true⟩).equals a = true ↔ a.Plain)) ∧
    ∃ s log, (Procedure.play Call.exec lateCalls new).2.indexes[0]? = some ⟨uniqueValues,s,log⟩ ∧
      (Query.premapGet (.uniqueEq 7)).run (Procedure.play Call.exec lateCalls new).2.context s =
        .ok (some ⟨Id.fromLong ⟨BitVec.allOnes 64,false⟩,some 7⟩) ∧
      ∃ a, Call.lastSet lateCalls (Id.fromLong ⟨BitVec.allOnes 64,false⟩) = some a ∧
        Id.fromLong ⟨BitVec.allOnes 64,false⟩ = a := by
  have hseven : JsValue.Defined (7 : ℕ) := rfl
  obtain ⟨_,hlists,hunique⟩ := ids_keep_identity hseven
  refine ⟨(hlists plainCalls (by decide)).1 (Id.fromLong ⟨5,true⟩,8) (by decide),?_⟩
  obtain ⟨s,log,hix,hq⟩ := hunique [.set (Id.fromLong ⟨5,false⟩) 6] [.set (Id.fromLong ⟨BitVec.allOnes 64,false⟩) 7]
    uniqueValues (by decide) (by decide)
  refine ⟨s,log,hix,?_⟩
  cases hix
  obtain ⟨a,ha,hset,_⟩ := hq (.premapGet (.uniqueEq 7)) (some ⟨Id.fromLong ⟨BitVec.allOnes 64,false⟩,some 7⟩) trivial rfl
    ⟨Id.fromLong ⟨BitVec.allOnes 64,false⟩,some 7⟩ (List.mem_singleton.mpr rfl)
  exact ⟨rfl,a,ha,hset _ rfl⟩

def negativeCalls : List (Call ℕ) := [.set (Id.fromLong ⟨BitVec.allOnes 64,false⟩) 5]

theorem negative_id_comes_back_different :
    (Id.SameItem ℕ (Id.fromLong ⟨BitVec.allOnes 64,false⟩) (Id.fromLong ⟨BitVec.allOnes 64,true⟩) ∧
      (Id.fromLong ⟨BitVec.allOnes 64,false⟩).equals (Id.fromLong ⟨BitVec.allOnes 64,true⟩) = false) ∧
    (∀ call ∈ negativeCalls, call.SetsOrDeletes) ∧
    ∃ p ∈ (Procedure.play Call.exec negativeCalls new).2.toList, ∃ a, Call.lastSet negativeCalls p.1 = some a ∧
      p.1.equals a = false :=
  ⟨⟨(Id.sameItem_iff (show JsValue.Defined (5 : ℕ) from rfl) _ _).mpr rfl,by decide⟩,by decide,
    (Id.fromLong ⟨BitVec.allOnes 64,true⟩,5),by decide,Id.fromLong ⟨BitVec.allOnes 64,false⟩,by decide,by decide⟩

end Collection

end ComposableIndexes
