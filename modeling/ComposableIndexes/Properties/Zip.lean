import ComposableIndexes.Abstract.Unzip

namespace ComposableIndexes

def Index.loadAll {In Out σ : Type} (ix : Index In Out σ) (ctx : IndexContext Out) :
    List (Id × In) → Procedure (Exception Out) σ Unit
  | [] => pure ()
  | (id,elem) :: rest => do
      ix.deliver ctx (.add id elem)
      ix.loadAll ctx rest

namespace ZipIndex

variable {In Out σ τ : Type} {head : Index In Out σ} {tail : Index In Out τ} {ctx : IndexContext Out}

theorem deliver_cons {u : Update In} {s : σ} {t : τ} {st : σ × τ}
    (h : (cons head tail).deliver ctx u (s,t) = .returned () st) :
    head.deliver ctx u s = .returned () st.1 ∧ tail.deliver ctx u t = .returned () st.2 := by
  obtain ⟨_,_,hon,hboth⟩ := Procedure.returned_of_bind h
  obtain ⟨hook,_,hhead,hrest⟩ := Procedure.returned_of_bind hon
  obtain ⟨hooks,_,htail,hpure⟩ := Procedure.returned_of_bind hrest
  cases hpure
  obtain ⟨_,hfirst,hsecond⟩ := Hook.of_andThen hboth
  obtain ⟨_,hs,rfl⟩ := Procedure.of_first hhead
  obtain ⟨_,ht,rfl⟩ := Procedure.of_second htail
  obtain ⟨_,hh,rfl⟩ := Procedure.of_first hfirst
  obtain ⟨_,hk,rfl⟩ := Procedure.of_second hsecond
  exact ⟨(Procedure.bind_returned hs).trans hh,(Procedure.bind_returned ht).trans hk⟩

theorem loadAll_cons {items : List (Id × In)} {s : σ} {t : τ} {st : σ × τ}
    (h : (cons head tail).loadAll ctx items (s,t) = .returned () st) :
    head.loadAll ctx items s = .returned () st.1 ∧ tail.loadAll ctx items t = .returned () st.2 := by
  induction items generalizing s t with
  | nil =>
    cases h
    exact ⟨rfl,rfl⟩
  | cons p rest ih =>
    obtain ⟨id,elem⟩ := p
    obtain ⟨_,_,hd,hrest⟩ := Procedure.returned_of_bind h
    obtain ⟨hs,ht⟩ := deliver_cons hd
    obtain ⟨hs',ht'⟩ := ih hrest
    exact ⟨(Procedure.bind_returned hs).trans hs',(Procedure.bind_returned ht).trans ht'⟩

end ZipIndex

namespace RegisteredIndex

variable {T : Type}

theorem receiveAll_eq (ctx : IndexContext T) (items : List (Id × T)) (e : UnregisteredIndex T) (s : e.State)
    (log : List (Update T)) :
    (∃ s' log', (e.index T).loadAll ctx items s = .returned () s' ∧
      receiveAll ctx items ⟨e,s,log⟩ = .returned () ⟨e,s',log'⟩) ∨
    ∃ x s' ix, (e.index T).loadAll ctx items s = .thrown x s' ∧ receiveAll ctx items ⟨e,s,log⟩ = .thrown x ix := by
  induction items generalizing s log with
  | nil => exact .inl ⟨s,log,rfl,rfl⟩
  | cons p rest ih =>
    obtain ⟨id,elem⟩ := p
    cases hd : (e.index T).deliver ctx (.add id elem) s with
    | thrown x s' =>
      have hr : receive ctx (.add id elem) ⟨e,s,log⟩ = .thrown x ⟨e,s',log⟩ := by simp only [receive,hd]
      exact .inr ⟨x,s',_,Procedure.bind_thrown hd,Procedure.bind_thrown hr⟩
    | returned _ s' =>
      have hr : receive ctx (.add id elem) ⟨e,s,log⟩ = .returned () ⟨e,s',log ++ [.add id elem]⟩ := by
        simp only [receive,hd]
      have hd' : (e.index T).loadAll ctx ((id,elem) :: rest) s = _ := Procedure.bind_returned hd
      have hr' : receiveAll ctx ((id,elem) :: rest) ⟨e,s,log⟩ = _ := Procedure.bind_returned hr
      rw [hd',hr']
      exact ih s' _

end RegisteredIndex

namespace Collection

variable {T : Type} [JsValue T]

theorem registerIndex_loadAll (e : UnregisteredIndex T) (c : Collection T) :
    (∃ s log, (e.index T).loadAll c.context c.toList (e.index T).create = .returned () s ∧
      registerIndex e c = .returned ⟨e,s,log⟩ { c with indexes := c.indexes ++ [⟨e,s,log⟩] }) ∨
    ∃ x s, (e.index T).loadAll c.context c.toList (e.index T).create = .thrown x s ∧ registerIndex e c = .thrown x c := by
  simp only [registerIndex,RegisteredIndex.new]
  rcases RegisteredIndex.receiveAll_eq c.context c.toList e (e.index T).create [] with ⟨s,log,hd,hr⟩ | ⟨x,s,ix,hd,hr⟩
  · rw [toList] at hr
    rw [hr]
    exact .inl ⟨s,log,hd,rfl⟩
  · rw [toList] at hr
    rw [hr]
    exact .inr ⟨x,s,hd,rfl⟩

end Collection

namespace UnregisteredIndex

variable {T : Type}

inductive Zips : List (UnregisteredIndex T) → UnregisteredIndex T → Prop where
  | nil : Zips [] .zipNil
  | cons (head : UnregisteredIndex T) {es : List (UnregisteredIndex T)} {tail : UnregisteredIndex T} (h : Zips es tail) :
      Zips (head :: es) (.zipCons head tail)

def zipOf : List (UnregisteredIndex T) → Option (UnregisteredIndex T)
  | [ix₁,ix₂] => some (zip ix₁ ix₂)
  | [ix₁,ix₂,ix₃] => some (zip3 ix₁ ix₂ ix₃)
  | [ix₁,ix₂,ix₃,ix₄] => some (zip4 ix₁ ix₂ ix₃ ix₄)
  | [ix₁,ix₂,ix₃,ix₄,ix₅] => some (zip5 ix₁ ix₂ ix₃ ix₄ ix₅)
  | _ => none

theorem zips_of_zipOf {es : List (UnregisteredIndex T)} {e : UnregisteredIndex T} (h : zipOf es = some e) : Zips es e := by
  unfold zipOf at h
  split at h <;> cases h
  · exact .cons _ (.cons _ .nil)
  · exact .cons _ (.cons _ (.cons _ .nil))
  · exact .cons _ (.cons _ (.cons _ (.cons _ .nil)))
  · exact .cons _ (.cons _ (.cons _ (.cons _ (.cons _ .nil))))

end UnregisteredIndex

inductive SameComponents {T : Type} (ctx ctx' : IndexContext T) :
    (e : UnregisteredIndex T) → e.State → List (RegisteredIndex T) → Prop where
  | nil : SameComponents ctx ctx' .zipNil () []
  | cons {head tail : UnregisteredIndex T} {s : head.State × tail.State} {s' : head.State} {log : List (Update T)}
      {parts : List (RegisteredIndex T)}
      (hq : ∀ {R : Type} (q : Query T head R),
        (Query.zipHead q : Query T (.zipCons head tail) R).run ctx s = q.run ctx' s')
      (h : SameComponents ctx ctx' tail s.2 parts) : SameComponents ctx ctx' (.zipCons head tail) s (⟨head,s',log⟩ :: parts)

theorem sameComponents_of_unzipped {T : Type} (ctx : IndexContext T) {e : UnregisteredIndex T} {s : e.State}
    {parts : List (RegisteredIndex T)} (h : Unzipped e s parts) : SameComponents ctx ctx e s parts := by
  induction h with
  | nil => exact .nil
  | cons s log _ ih => exact .cons (fun _ => rfl) ih

namespace Collection

open UnregisteredIndex (Zips zipOf)

variable {T : Type} [JsValue T]

theorem play_registerAll {es : List (UnregisteredIndex T)} {e : UnregisteredIndex T} (hz : Zips es e) (c : Collection T)
    {s : e.State} (h : (e.index T).loadAll c.context c.toList (e.index T).create = .returned () s) :
    ∃ parts, Procedure.play Call.exec (es.map Call.registerIndex) c =
      (es.map (fun _ => none),{ c with indexes := c.indexes ++ parts }) ∧ Unzipped e s parts := by
  induction hz generalizing c with
  | nil => exact ⟨[],by simp [Procedure.play],.nil⟩
  | @cons head es tail _ ih =>
    obtain ⟨hs,ht⟩ := ZipIndex.loadAll_cons h
    rcases registerIndex_loadAll head c with ⟨s₁,log,hd,hr⟩ | ⟨x,s₁,hd,_⟩
    · rw [hs] at hd
      cases hd
      obtain ⟨parts,hp,hu⟩ := ih { c with indexes := c.indexes ++ [⟨head,s.1,log⟩] } ht
      refine ⟨⟨head,s.1,log⟩ :: parts,?_,.cons s.1 log hu⟩
      simp only [List.map_cons,Procedure.play,Call.exec,hr,Outcome.state,hp,List.append_assoc,List.singleton_append]
    · rw [hs] at hd
      cases hd

theorem zip_is_separate_registration {es : List (UnregisteredIndex T)} {e : UnregisteredIndex T}
    (hz : zipOf es = some e) {c : Collection T} (hreg : (registerIndex e c).Returns) :
    ∃ ix c₁ c₂, registerIndex e c = .returned ix c₁ ∧
      Procedure.play Call.exec (es.map Call.registerIndex) c = (es.map (fun _ => none),c₂) ∧
      ∀ calls : List (Call T),
        (Procedure.play Call.exec calls c₁).1 = (Procedure.play Call.exec calls c₂).1 ∧
        (Procedure.play Call.exec calls c₁).2.store = (Procedure.play Call.exec calls c₂).2.store ∧
        ∃ before s log parts after, before.length = c.indexes.length ∧
          (Procedure.play Call.exec calls c₁).2.indexes = before ++ ⟨e,s,log⟩ :: after ∧
          (Procedure.play Call.exec calls c₂).2.indexes = before ++ (parts ++ after) ∧
          SameComponents (Procedure.play Call.exec calls c₁).2.context (Procedure.play Call.exec calls c₂).2.context
            e s parts := by
  have hzips := UnregisteredIndex.zips_of_zipOf hz
  rcases registerIndex_loadAll e c with ⟨s,log,hd,hr⟩ | ⟨x,s,_,hr⟩
  · obtain ⟨parts,hp,hu⟩ := play_registerAll hzips c hd
    refine ⟨_,_,_,hr,hp,?_⟩
    intro calls
    have ha : Alike (Unzips e c.indexes.length) { c with indexes := c.indexes ++ [⟨e,s,log⟩] }
        { c with indexes := c.indexes ++ parts } := ⟨rfl,rfl,unzips_last c.indexes hu log⟩
    obtain ⟨hx,ha'⟩ := Procedure.play_lockstep (exec_unzips e _) calls ha
    obtain ⟨before,s',log',parts',after,hlen,hixs,hixs',hu'⟩ := ha'.indexes.split
    refine ⟨hx,ha'.store.symm,before,s',log',parts',after,hlen,hixs,hixs',?_⟩
    rw [ha'.context_eq]
    exact sameComponents_of_unzipped _ hu'
  · rw [hr] at hreg
    exact absurd hreg (Outcome.not_returns_thrown _ _)

def keyed : UnregisteredIndex ℕ := .premap some .uniqueHashIndex

def oneItem : Collection ℕ := (Procedure.play Call.exec [.add 5] new).2

theorem zipped_pair_throws_alike : ∃ ix c₁ c₂,
    registerIndex (.zip .hashIndex keyed) oneItem = .returned ix c₁ ∧
    Procedure.play Call.exec [.registerIndex .hashIndex,.registerIndex keyed] oneItem = ([none,none],c₂) ∧
    (Procedure.play Call.exec [.add 5,.add 6] c₁).1 = (Procedure.play Call.exec [.add 5,.add 6] c₂).1 := by
  have hz : zipOf [.hashIndex,keyed] = some (.zip .hashIndex keyed) := rfl
  obtain ⟨ix,c₁,c₂,hr,hp,hcalls⟩ := zip_is_separate_registration hz (show (registerIndex _ oneItem).Returns by decide)
  exact ⟨ix,c₁,c₂,hr,hp,(hcalls [.add 5,.add 6]).1⟩

end Collection

end ComposableIndexes
