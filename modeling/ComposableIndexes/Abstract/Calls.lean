import ComposableIndexes.Abstract.Operations
import ComposableIndexes.Library.Runs

namespace ComposableIndexes

open RegisteredIndex (Tracks Obstacle Separate load)

namespace Collection

variable {T : Type} [JsValue T] {P : Id → Prop} {c : Collection T}

section Register

omit [JsValue T] in
theorem separate_toList (c : Collection T) : Separate PartialMap.empty c.toList := by
  refine ⟨?_,by simp⟩
  have hn : ((c.store.entries.map Prod.fst).map Id.bits).Nodup := by
    refine c.store.entries_keys_nodup.map_on ?_
    intro a ha b hb hab
    obtain ⟨⟨id,v⟩,hp,rfl⟩ := List.mem_map.mp ha
    obtain ⟨⟨id',w⟩,hq,rfl⟩ := List.mem_map.mp hb
    exact Id.eq_of_bits ((c.store.mem_entries id v).mp hp).1 ((c.store.mem_entries id' w).mp hq).1 hab
  rwa [List.map_map] at hn

omit [JsValue T] in
theorem load_toList (c : Collection T) : load PartialMap.empty c.toList = c.contents := by
  funext i
  ext v
  rw [RegisteredIndex.load_eq_some c.separate_toList]
  simp only [toList,IdMap.mem_entries,PartialMap.empty_apply,reduceCtorEq,false_or]
  constructor
  · rintro ⟨id,rfl,_,hv⟩
    exact hv
  · intro hv
    exact ⟨Id.fromLong ⟨i,true⟩,rfl,rfl,hv⟩

omit [JsValue T] in
theorem values_load {S : Contents T} {items : List (Id × T)} (h : Separate S items) :
    (load S items).values = (items.map Prod.snd : List T) + S.values := by
  induction items generalizing S with
  | nil => simp [load]
  | cons p rest ih =>
    obtain ⟨id,elem⟩ := p
    rw [load,ih h.tail,PartialMap.values_set_of_none (h.2 (id,elem) (by simp)),List.map_cons,← Multiset.cons_coe,
      Multiset.cons_add,Multiset.add_cons]

omit [JsValue T] in
theorem values_toList (c : Collection T) : c.contents.values = (c.toList.map Prod.snd : List T) := by
  rw [← load_toList,values_load c.separate_toList,PartialMap.values_empty,add_zero]

theorem state_exec_registerIndex (e : UnregisteredIndex T) (c : Collection T) :
    ((Call.registerIndex e).exec c).state = (registerIndex e c).state := by
  simp only [Call.exec]
  cases registerIndex e c <;> rfl

theorem registered_of_exec {e : UnregisteredIndex T} {c' : Collection T}
    (hr : (Call.registerIndex e).exec c = .returned () c') : ∃ ix, registerIndex e c = .returned ix c' := by
  simp only [Call.exec] at hr
  cases ho : registerIndex e c with
  | thrown x c₁ =>
    rw [ho] at hr
    cases hr
  | returned ix c₁ =>
    rw [ho] at hr
    cases hr
    exact ⟨ix,rfl⟩

theorem registerIndex_cases (hPu : ∀ id : Id, id.Unsigned → P id) (e : UnregisteredIndex T) (c : Collection T) :
    (∃ s log, registerIndex e c = .returned ⟨e,s,log⟩ { c with indexes := c.indexes ++ [⟨e,s,log⟩] } ∧
      Tracks P c.contents ⟨e,s,log⟩) ∨
    ∃ R id v, Obstacle e PartialMap.empty c.toList R id v ∧
      registerIndex e c = .thrown (conflictException c.context id) c := by
  have hP : ∀ p ∈ c.store.entries, P p.1 := fun p hp => hPu p.1 ((c.store.mem_entries p.1 p.2).mp hp).1
  have hnew := RegisteredIndex.tracks_new P e
  rcases RegisteredIndex.receiveAll_cases c.context hnew c.separate_toList hP with
    ⟨s,log,hr,ht⟩ | ⟨R,id,v,ix,ho,hr⟩
  · rw [load_toList] at ht
    refine .inl ⟨s,log,?_,ht⟩
    rw [toList] at hr
    simp only [registerIndex,RegisteredIndex.new,hr]
  · refine .inr ⟨R,id,v,ho,?_⟩
    rw [toList] at hr
    simp only [registerIndex,RegisteredIndex.new,hr]

omit [JsValue T] in
theorem not_obstacle {e : UnregisteredIndex T} {s : e.State} (h : e.Holds P c.contents s) {R : Contents T} {id : Id}
    {v : T} : ¬Obstacle e PartialMap.empty c.toList R id v := by
  intro ho
  have hsub := ho.before
  rw [load_toList] at hsub
  exact (e.refines T P).accepts_stored _ R s id v h hsub ho.absent ((c.store.mem_entries id v).mp ho.mem).2 ho.rejects

theorem registerIndex_returned (hPu : ∀ id : Id, id.Unsigned → P id) {e : UnregisteredIndex T} {s : e.State}
    (h : e.Holds P c.contents s) : ∃ s' log,
      registerIndex e c = .returned ⟨e,s',log⟩ { c with indexes := c.indexes ++ [⟨e,s',log⟩] } ∧
      Tracks P c.contents ⟨e,s',log⟩ := by
  rcases registerIndex_cases hPu e c with hok | ⟨R,id,v,ho,_⟩
  · exact hok
  · exact absurd ho (not_obstacle h)

end Register

section Alter

variable {Ret : Type} {id : Id}

omit [JsValue T] in
theorem clash_iff (c : Collection T) (S : Contents T) (u : Update T) : c.Clash S u ↔ ∃ e ∈ c.exprs, e.Clashes S u := by
  simp [Clash,exprs]

def putBack (id : Id) (r : Option T × Ret) : Procedure (Exception T) (Collection T) Ret :=
  match r.1 with
  | none => pure r.2
  | some v => do
      if JsValue.truthy v then
        set id v
      pure r.2

theorem alter_keep (f : Option T → Option T × Ret) (h : JsValue.truthyOption (c.get id) = false) :
    alter id f c = putBack id (f (c.get id)) c := by
  rw [alter,Procedure.bind_returned (Procedure.read_apply _ c),if_neg (by simp [h])]
  rfl

theorem alter_drop (f : Option T → Option T × Ret) (h : JsValue.truthyOption (c.get id) = true) {old : Option T}
    {c' : Collection T} (hd : delete id c = .returned old c') : alter id f c = putBack id (f (c.get id)) c' := by
  rw [alter,Procedure.bind_returned (Procedure.read_apply _ c),if_pos h]
  exact Procedure.bind_returned hd

theorem alter_thrown (f : Option T → Option T × Ret) (h : JsValue.truthyOption (c.get id) = true) {e : Exception T}
    {c' : Collection T} (hd : delete id c = .thrown e c') : alter id f c = .thrown e c' := by
  simp [alter,Procedure.bind_apply,h,hd]

def PutBackClash (c : Collection T) (id : Id) (post : Option T) : Prop :=
  ∃ v, post = some v ∧ JsValue.truthy v = true ∧ c.Clash c.contents (c.setUpdate id v)

theorem putBack_cases (hc : c.Consistent P) (hP : P id) (r : Option T × Ret) :
    (¬c.PutBackClash id r.1 ∧ ∃ c', putBack id r c = .returned r.2 c' ∧ c'.Consistent P) ∨
    (c.PutBackClash id r.1 ∧ ∃ c', putBack id r c = .thrown (conflictException c'.context id) c') := by
  obtain ⟨post,ret⟩ := r
  cases post with
  | none => exact .inl ⟨by simp [PutBackClash],c,rfl,hc⟩
  | some v =>
    cases hv : JsValue.truthy v with
    | false => exact .inl ⟨by simp [PutBackClash,hv],c,by simp [putBack,hv],hc⟩
    | true =>
      by_cases hn : c.Clash c.contents (c.setUpdate id v)
      · obtain ⟨c',hs,_⟩ := set_thrown hc hP hn
        refine .inr ⟨⟨v,rfl,hv,hn⟩,c',?_⟩
        simp [putBack,hv,Procedure.bind_apply,hs]
      · obtain ⟨c',hs,hc'⟩ := set_returned hc (JsValue.defined_of_truthy v hv) hP hn
        refine .inl ⟨?_,c',?_,hc'⟩
        · rintro ⟨w,hw,_,hcl⟩
          cases hw
          exact hn hcl
        · simp [putBack,hv,Procedure.bind_apply,hs]

def AlterClash (c : Collection T) (id : Id) (post : Option T) : Prop :=
  if JsValue.truthyOption (c.get id) then
    ∃ v, post = some v ∧ JsValue.truthy v = true ∧ c.Clash (c.contents.erase id.bits) (.add id v)
  else c.PutBackClash id post

theorem not_alterClash (hn : ∀ S u, ¬c.Clash S u) (id : Id) (post : Option T) : ¬c.AlterClash id post := by
  unfold AlterClash PutBackClash
  split_ifs
  · rintro ⟨_,_,_,hcl⟩
    exact hn _ _ hcl
  · rintro ⟨_,_,_,hcl⟩
    exact hn _ _ hcl

theorem putBackClash_deleted {c' : Collection T} (hc' : c'.Consistent P)
    (hS : c'.contents = c.contents.erase id.bits) (he : c'.exprs = c.exprs)
    (ht : JsValue.truthyOption (c.get id) = true) (post : Option T) :
    c'.PutBackClash id post ↔ c.AlterClash id post := by
  have hget : c'.get id = none := by
    rw [get_eq hc'.defined,hS,PartialMap.erase_self]
  have hset (v : T) : c'.setUpdate id v = .add id v := by
    rw [setUpdate,hget]
  simp only [AlterClash,PutBackClash,ht,if_true,hset,hS,clash_iff,he]

theorem alter_cases (hc : c.Consistent P) (hP : P id) (f : Option T → Option T × Ret) :
    (¬c.AlterClash id (f (c.get id)).1 ∧ ∃ c', alter id f c = .returned (f (c.get id)).2 c' ∧ c'.Consistent P) ∨
    (c.AlterClash id (f (c.get id)).1 ∧ ∃ c', alter id f c = .thrown (conflictException c'.context id) c') := by
  cases ht : JsValue.truthyOption (c.get id) with
  | false =>
    have hiff : c.AlterClash id (f (c.get id)).1 ↔ c.PutBackClash id (f (c.get id)).1 := by
      simp [AlterClash,ht]
    rw [alter_keep f ht,hiff]
    exact putBack_cases hc hP _
  | true =>
    obtain ⟨c',hd,hc',hS,he⟩ := delete_returned hc hP
    rw [alter_drop f ht hd,← putBackClash_deleted hc' hS he ht]
    exact putBack_cases hc' hP _

end Alter

end Collection

namespace Call

variable {T : Type} [JsValue T] {P : Id → Prop} {c : Collection T}

def Admissible (P : Id → Prop) (c : Collection T) : Call T → Prop
  | .registerIndex _ => True
  | .add value => JsValue.Defined value ∧ P c.nextId ∧ c.contents c.nextId.bits = none
  | .set id newValue => JsValue.Defined newValue ∧ P id
  | .delete id => P id
  | .alter id _ => P id
  | .adjust id _ => P id

def adjusted (f : T → T) (pre : Option T) : Option T × Unit :=
  (if JsValue.truthyOption pre then pre.map f else none,())

def Conflict (c : Collection T) : Call T → Prop
  | .registerIndex uIndex => ∃ R id v, Obstacle uIndex PartialMap.empty c.toList R id v
  | .add value => c.Clash c.contents (.add c.nextId value)
  | .set id newValue => c.Clash c.contents (c.setUpdate id newValue)
  | .delete _ => False
  | .alter id f => c.AlterClash id (f (c.get id)).1
  | .adjust id f => c.AlterClash id (adjusted f (c.get id)).1

theorem exec_cases (hPu : ∀ id : Id, id.Unsigned → P id) (hc : c.Consistent P) (call : Call T)
    (ha : call.Admissible P c) :
    (¬call.Conflict c ∧ ∃ c', call.exec c = .returned () c' ∧ c'.Consistent P) ∨
    (call.Conflict c ∧ ∃ id c', call.exec c = .thrown (conflictException c'.context id) c') := by
  cases call with
  | registerIndex e =>
    rcases Collection.registerIndex_cases hPu e c with ⟨s,log,hr,ht⟩ | ⟨R,id,v,ho,hr⟩
    · refine .inl ⟨fun ⟨R,id,v,ho⟩ => Collection.not_obstacle ht.holds ho,
        { c with indexes := c.indexes ++ [⟨e,s,log⟩] },by simp only [exec,hr],hc.defined,?_⟩
      intro ix hix
      rcases List.mem_append.mp hix with hix | hix
      · exact hc.tracks ix hix
      · rw [List.mem_singleton] at hix
        rw [hix]
        exact ht
    · exact .inr ⟨⟨R,id,v,ho⟩,id,c,by simp only [exec,hr]⟩
  | add v =>
    obtain ⟨hv,hP,hf⟩ := ha
    by_cases hn : c.Clash c.contents (.add c.nextId v)
    · obtain ⟨c',hr,_⟩ := Collection.add_thrown hc hP hf hn
      exact .inr ⟨hn,_,c',Procedure.bind_thrown hr⟩
    · obtain ⟨c',hr,hc'⟩ := Collection.add_returned hc hv hP hf hn
      exact .inl ⟨hn,c',Procedure.bind_returned hr,hc'⟩
  | set id v =>
    obtain ⟨hv,hP⟩ := ha
    by_cases hn : c.Clash c.contents (c.setUpdate id v)
    · obtain ⟨c',hr,_⟩ := Collection.set_thrown hc hP hn
      exact .inr ⟨hn,_,c',hr⟩
    · obtain ⟨c',hr,hc'⟩ := Collection.set_returned hc hv hP hn
      exact .inl ⟨hn,c',hr,hc'⟩
  | delete id =>
    obtain ⟨c',hr,hc',_⟩ := Collection.delete_returned hc ha
    exact .inl ⟨not_false,c',Procedure.bind_returned hr,hc'⟩
  | alter id f =>
    rcases Collection.alter_cases hc ha f with ⟨hn,c',hr,hc'⟩ | ⟨hn,c',hr⟩
    · exact .inl ⟨hn,c',Procedure.bind_returned hr,hc'⟩
    · exact .inr ⟨hn,_,c',Procedure.bind_thrown hr⟩
  | adjust id f =>
    rcases Collection.alter_cases hc ha (adjusted f) with ⟨hn,c',hr,hc'⟩ | ⟨hn,c',hr⟩
    · exact .inl ⟨hn,c',hr,hc'⟩
    · exact .inr ⟨hn,_,c',hr⟩

end Call

end ComposableIndexes
