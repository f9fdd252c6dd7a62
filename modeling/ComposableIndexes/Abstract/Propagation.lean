import ComposableIndexes.Abstract.Expression
import ComposableIndexes.Model.Collection

namespace ComposableIndexes

variable {T : Type} {P : Id → Prop} {S R : Contents T} {u : Update T} (ctx : IndexContext T)

namespace RegisteredIndex

structure Tracks (P : Id → Prop) (S : Contents T) (ix : RegisteredIndex T) : Prop where
  holds : ix.expr.Holds P S ix.state
  log : ValidLog PartialMap.empty ix.log S

theorem tracks_new (P : Id → Prop) (e : UnregisteredIndex T) : Tracks P PartialMap.empty (new e) :=
  ⟨(e.refines T P).create,rfl⟩

theorem receive_returned {ix : RegisteredIndex T} (h : ix.Tracks P S) (hu : u.ValidAt S) (hP : P u.id)
    (hc : ¬ix.expr.Clashes S u) : ∃ s, receive ctx u ix = .returned () ⟨ix.expr,s,ix.log ++ [u]⟩ ∧
      Tracks P (u.apply S) ⟨ix.expr,s,ix.log ++ [u]⟩ := by
  obtain ⟨s,hs,hh⟩ := (ix.expr.refines T P).deliver_returned ctx h.holds hu hP
    (fun hr => hc (.inl hr)) (fun hd => hc (.inr hd))
  refine ⟨s,?_,hh,h.log.snoc hu⟩
  simp only [receive,hs]

theorem receive_thrown {ix : RegisteredIndex T} (h : ix.Tracks P S) (hu : u.ValidAt S) (hP : P u.id)
    (hc : ix.expr.Clashes S u) : ∃ ix', receive ctx u ix = .thrown (conflictException ctx u.id) ix' := by
  obtain ⟨s,hs⟩ := (ix.expr.refines T P).deliver_thrown ctx h.holds hu hP hc
  refine ⟨⟨ix.expr,s,ix.log⟩,?_⟩
  simp only [receive,hs]

theorem receive_conflict {ix ix' : RegisteredIndex T} (h : ix.Tracks P S) (hu : u.ValidAt S) (hP : P u.id)
    {x : Exception T} (hr : receive ctx u ix = .thrown x ix') : x = conflictException ctx u.id := by
  by_cases hc : ix.expr.Clashes S u
  · obtain ⟨ix₁,ht⟩ := receive_thrown ctx h hu hP hc
    rw [ht] at hr
    cases hr
    rfl
  · obtain ⟨s,ht,_⟩ := receive_returned ctx h hu hP hc
    rw [ht] at hr
    cases hr

def load : Contents T → List (Id × T) → Contents T
  | S, [] => S
  | S, (id,elem) :: rest => load (S.set id.bits elem) rest

def Separate (S : Contents T) (items : List (Id × T)) : Prop :=
  (items.map (fun p => p.1.bits)).Nodup ∧ ∀ p ∈ items, S p.1.bits = none

theorem Separate.tail {id : Id} {elem : T} {rest : List (Id × T)} (h : Separate S ((id,elem) :: rest)) :
    Separate (S.set id.bits elem) rest := by
  obtain ⟨hn,hS⟩ := h
  rw [List.map_cons,List.nodup_cons] at hn
  refine ⟨hn.2,?_⟩
  intro p hp
  have hne : p.1.bits ≠ id.bits := fun he => hn.1 (he ▸ List.mem_map_of_mem hp)
  simp [PartialMap.set_apply,hne,hS p (by simp [hp])]

theorem load_eq_some {items : List (Id × T)} (h : Separate S items) (i : BitVec 64) (v : T) :
    load S items i = some v ↔ S i = some v ∨ ∃ id, id.bits = i ∧ (id,v) ∈ items := by
  induction items generalizing S with
  | nil => simp [load]
  | cons p rest ih =>
    obtain ⟨id,elem⟩ := p
    rw [load,ih h.tail,PartialMap.set_apply]
    by_cases hi : i = id.bits
    · subst hi
      have hS : S id.bits = none := h.2 (id,elem) (by simp)
      have hne : ∀ id' w, (id',w) ∈ rest → id'.bits ≠ id.bits := by
        intro id' w hw he
        have hn := h.tail.2 (id',w) hw
        simp [he] at hn
      simp only [if_true,hS,Option.some.injEq,reduceCtorEq,false_or,List.mem_cons,Prod.mk.injEq]
      constructor
      · rintro (rfl | ⟨id',he,hw⟩)
        · exact ⟨id,rfl,.inl ⟨rfl,rfl⟩⟩
        · exact absurd he (hne id' v hw)
      · rintro ⟨id',he,⟨rfl,rfl⟩ | hw⟩
        · exact .inl rfl
        · exact absurd he (hne id' v hw)
    · rw [if_neg hi]
      refine or_congr_right (exists_congr fun id' => and_congr_right fun he => ?_)
      simp only [List.mem_cons,Prod.mk.injEq]
      constructor
      · exact .inr
      · rintro (⟨rfl,_⟩ | hw)
        · exact absurd he.symm hi
        · exact hw

theorem sub_load {items : List (Id × T)} (h : Separate S items) : PartialMap.Sub S (load S items) :=
  fun i v hv => (load_eq_some h i v).mpr (.inl hv)

structure Obstacle (e : UnregisteredIndex T) (S : Contents T) (items : List (Id × T)) (R : Contents T) (id : Id)
    (v : T) : Prop where
  before : PartialMap.Sub R (load S items)
  absent : R id.bits = none
  mem : (id,v) ∈ items
  rejects : e.Rejects R (.add id v)

theorem receiveAll_cases {e : UnregisteredIndex T} {s : e.State} {log : List (Update T)} {items : List (Id × T)}
    (h : Tracks P S ⟨e,s,log⟩) (hsep : Separate S items) (hP : ∀ p ∈ items, P p.1) :
    (∃ s' log', receiveAll ctx items ⟨e,s,log⟩ = .returned () ⟨e,s',log'⟩ ∧
      Tracks P (load S items) ⟨e,s',log'⟩) ∨
    ∃ R id v ix', Obstacle e S items R id v ∧
      receiveAll ctx items ⟨e,s,log⟩ = .thrown (conflictException ctx id) ix' := by
  induction items generalizing S s log with
  | nil => exact .inl ⟨s,log,rfl,h⟩
  | cons p rest ih =>
    obtain ⟨id,elem⟩ := p
    have hu : (Update.add id elem).ValidAt S := hsep.2 (id,elem) (by simp)
    have hPid : P (Update.add id elem).id := hP (id,elem) (by simp)
    by_cases hc : e.Rejects S (.add id elem)
    · obtain ⟨ix',hr⟩ := receive_thrown ctx h hu hPid (.inl hc)
      refine .inr ⟨S,id,elem,ix',⟨sub_load hsep,hu,by simp,hc⟩,?_⟩
      exact Procedure.bind_thrown hr
    · have hc' : ¬e.Clashes S (.add id elem) := by
        rintro (hr | hd)
        · exact hc hr
        · exact (e.refines T P).not_defers_add S id elem hd
      obtain ⟨s',hr,ht⟩ := receive_returned ctx h hu hPid hc'
      have hb : receiveAll ctx ((id,elem) :: rest) ⟨e,s,log⟩ =
          receiveAll ctx rest ⟨e,s',log ++ [.add id elem]⟩ := Procedure.bind_returned hr
      rw [hb]
      rcases ih ht hsep.tail (fun p hp => hP p (by simp [hp])) with hok | ⟨R,id',v,ix',ho,hthrow⟩
      · exact .inl hok
      · exact .inr ⟨R,id',v,ix',⟨ho.before,ho.absent,by simp [ho.mem],ho.rejects⟩,hthrow⟩

theorem receiveAll_thrown {items : List (Id × T)} {ix ix' : RegisteredIndex T} {x : Exception T}
    (h : receiveAll ctx items ix = .thrown x ix') : ∃ before id v after ix₁, items = before ++ (id,v) :: after ∧
      receiveAll ctx before ix = .returned () ix₁ ∧ receive ctx (.add id v) ix₁ = .thrown x ix' := by
  induction items generalizing ix with
  | nil => cases h
  | cons p rest ih =>
    obtain ⟨id,elem⟩ := p
    cases hr : receive ctx (.add id elem) ix with
    | thrown e ix₁ =>
      have hb : receiveAll ctx ((id,elem) :: rest) ix = .thrown e ix₁ := Procedure.bind_thrown hr
      rw [hb] at h
      cases h
      exact ⟨[],id,elem,rest,ix,rfl,rfl,hr⟩
    | returned a ix₁ =>
      have hb : receiveAll ctx ((id,elem) :: rest) ix = receiveAll ctx rest ix₁ := Procedure.bind_returned hr
      rw [hb] at h
      obtain ⟨before,id',v,after,ix₂,he,hbefore,hthrow⟩ := ih h
      refine ⟨(id,elem) :: before,id',v,after,ix₂,by rw [he,List.cons_append],?_,hthrow⟩
      exact (Procedure.bind_returned hr).trans hbefore

end RegisteredIndex

open RegisteredIndex (Tracks)

inductive Prepared.Ready (P : Id → Prop) (S : Contents T) (u : Update T) (x : Exception T) (p : Prepared T) :
    Prop where
  | commits (hd : ¬p.expr.Defers S u) (s' : p.expr.State) (hh : p.hook p.state = .returned () s')
      (ht : Tracks P (u.apply S) ⟨p.expr,s',p.log ++ [u]⟩)
  | fails (hd : p.expr.Defers S u) (s' : p.expr.State) (hh : p.hook p.state = .thrown x s')

namespace Collection

theorem collectHooks_rejected {ixs : List (RegisteredIndex T)} (h : ∀ ix ∈ ixs, ix.Tracks P S)
    (hu : u.ValidAt S) (hP : P u.id) (hr : ∃ ix ∈ ixs, ix.expr.Rejects S u) :
    ∃ ixs', collectHooks ctx u ixs = .error (conflictException ctx u.id,ixs') := by
  induction ixs with
  | nil => simp at hr
  | cons ix rest ih =>
    have hv := (ix.expr.refines T P).onUpdate ctx S ix.state u (h ix (by simp)).holds hu hP
    have hrest : ¬ix.expr.Rejects S u → ∃ ixs', collectHooks ctx u rest = .error (conflictException ctx u.id,ixs') := by
      intro hn
      refine ih (fun ix' hix => h ix' (by simp [hix])) ?_
      simpa [hn] using hr
    simp only [collectHooks]
    generalize (ix.expr.index T).onUpdate ctx u ix.state = o at hv
    cases hv with
    | rejected => exact ⟨_,rfl⟩
    | committed hn =>
      obtain ⟨ixs',he⟩ := hrest hn
      simp only [he]
      exact ⟨_,rfl⟩
    | failed hn =>
      obtain ⟨ixs',he⟩ := hrest hn
      simp only [he]
      exact ⟨_,rfl⟩

theorem collectHooks_ready {ixs : List (RegisteredIndex T)} (h : ∀ ix ∈ ixs, ix.Tracks P S)
    (hu : u.ValidAt S) (hP : P u.id) (hr : ∀ ix ∈ ixs, ¬ix.expr.Rejects S u) :
    ∃ ps, collectHooks ctx u ixs = .ok ps ∧ (∀ p ∈ ps, p.Ready P S u (conflictException ctx u.id)) ∧
      ps.map (fun p => p.expr) = ixs.map (fun ix => ix.expr) := by
  induction ixs with
  | nil => exact ⟨[],rfl,by simp,rfl⟩
  | cons ix rest ih =>
    have hix := h ix (by simp)
    have hv := (ix.expr.refines T P).onUpdate ctx S ix.state u hix.holds hu hP
    obtain ⟨ps,hps,hready,hexpr⟩ := ih (fun ix' hm => h ix' (by simp [hm])) (fun ix' hm => hr ix' (by simp [hm]))
    simp only [collectHooks,hps]
    generalize (ix.expr.index T).onUpdate ctx u ix.state = o at hv
    cases hv with
    | rejected hr' => exact absurd hr' (hr ix (by simp))
    | @committed hook s s' hn hd hs hh hs' =>
      refine ⟨_,rfl,?_,by simp [hexpr]⟩
      rintro p (_ | ⟨_,hp⟩)
      · exact .commits hd s' hh ⟨hs',hix.log.snoc hu⟩
      · exact hready p hp
    | @failed hook s s' hn hd hs hh =>
      refine ⟨_,rfl,?_,by simp [hexpr]⟩
      rintro p (_ | ⟨_,hp⟩)
      · exact .fails hd s' hh
      · exact hready p hp

theorem defers_iff {ps : List (Prepared T)} {ixs : List (RegisteredIndex T)}
    (h : ps.map (fun p => p.expr) = ixs.map (fun ix => ix.expr)) (S : Contents T) (u : Update T) :
    (∃ p ∈ ps, p.expr.Defers S u) ↔ ∃ ix ∈ ixs, ix.expr.Defers S u := by
  have he : (∃ e ∈ ps.map (fun p => p.expr), e.Defers S u) ↔ ∃ e ∈ ixs.map (fun ix => ix.expr), e.Defers S u := by
    rw [h]
  simpa using he

theorem runHooks_returned {x : Exception T} {ps : List (Prepared T)} (h : ∀ p ∈ ps, p.Ready P S u x)
    (hd : ∀ p ∈ ps, ¬p.expr.Defers S u) : ∃ ixs, runHooks u ps = .returned () ixs ∧
      (∀ ix ∈ ixs, ix.Tracks P (u.apply S)) ∧ ixs.map (fun ix => ix.expr) = ps.map (fun p => p.expr) := by
  induction ps with
  | nil => exact ⟨[],rfl,by simp,rfl⟩
  | cons p ps ih =>
    obtain ⟨ixs,hrun,ht,hexpr⟩ := ih (fun q hq => h q (by simp [hq])) (fun q hq => hd q (by simp [hq]))
    cases h p (by simp) with
    | fails hd' => exact absurd hd' (hd p (by simp))
    | commits _ s' hh htp =>
      refine ⟨⟨p.expr,s',p.log ++ [u]⟩ :: ixs,by simp only [runHooks,hh,hrun,Outcome.mapState],?_,by simp [hexpr]⟩
      rintro ix (_ | ⟨_,hix⟩)
      · exact htp
      · exact ht ix hix

theorem runHooks_thrown {x : Exception T} {ps : List (Prepared T)} (h : ∀ p ∈ ps, p.Ready P S u x)
    (hd : ∃ p ∈ ps, p.expr.Defers S u) : ∃ ixs, runHooks u ps = .thrown x ixs := by
  induction ps with
  | nil => simp at hd
  | cons p ps ih =>
    cases h p (by simp) with
    | fails _ s' hh =>
      simp only [runHooks,hh]
      exact ⟨_,rfl⟩
    | commits hn s' hh =>
      obtain ⟨ixs,hrun⟩ := ih (fun q hq => h q (by simp [hq])) (by simpa [hn] using hd)
      simp only [runHooks,hh,hrun]
      exact ⟨_,rfl⟩

variable [JsValue T]

def contents (c : Collection T) : Contents T := c.store.find

def Clash (c : Collection T) (S : Contents T) (u : Update T) : Prop := ∃ ix ∈ c.indexes, ix.expr.Clashes S u

theorem propagateUpdate_returned {c : Collection T} (h : ∀ ix ∈ c.indexes, ix.Tracks P S) (hu : u.ValidAt S)
    (hP : P u.id) (hc : ¬c.Clash S u) :
    ∃ ixs, propagateUpdate u c = .returned () { c with indexes := ixs } ∧
      (∀ ix ∈ ixs, ix.Tracks P (u.apply S)) ∧ ixs.map (fun ix => ix.expr) = c.indexes.map (fun ix => ix.expr) := by
  have hr : ∀ ix ∈ c.indexes, ¬ix.expr.Rejects S u := fun ix hix hr => hc ⟨ix,hix,.inl hr⟩
  obtain ⟨ps,hps,hready,hexpr⟩ := collectHooks_ready c.context h hu hP hr
  have hd : ∀ p ∈ ps, ¬p.expr.Defers S u := by
    intro p hp hdp
    obtain ⟨ix,hix,hdix⟩ := (defers_iff hexpr S u).mp ⟨p,hp,hdp⟩
    exact hc ⟨ix,hix,.inr hdix⟩
  obtain ⟨ixs,hrun,ht,hexpr'⟩ := runHooks_returned hready hd
  exact ⟨ixs,by simp only [propagateUpdate,hps,hrun,Outcome.mapState],ht,hexpr'.trans hexpr⟩

theorem propagateUpdate_thrown {c : Collection T} (h : ∀ ix ∈ c.indexes, ix.Tracks P S) (hu : u.ValidAt S)
    (hP : P u.id) (hc : c.Clash S u) :
    ∃ ixs, propagateUpdate u c = .thrown (conflictException c.context u.id) { c with indexes := ixs } := by
  by_cases hr : ∃ ix ∈ c.indexes, ix.expr.Rejects S u
  · obtain ⟨ixs,he⟩ := collectHooks_rejected c.context h hu hP hr
    exact ⟨ixs,by simp only [propagateUpdate,he]⟩
  · have hr' : ∀ ix ∈ c.indexes, ¬ix.expr.Rejects S u := fun ix hix h' => hr ⟨ix,hix,h'⟩
    obtain ⟨ps,hps,hready,hexpr⟩ := collectHooks_ready c.context h hu hP hr'
    obtain ⟨ix,hix,hcl⟩ := hc
    have hd := (defers_iff hexpr S u).mpr ⟨ix,hix,hcl.resolve_left (hr' ix hix)⟩
    obtain ⟨ixs,hrun⟩ := runHooks_thrown hready hd
    exact ⟨ixs,by simp only [propagateUpdate,hps,hrun,Outcome.mapState]⟩

omit [JsValue T] in
theorem collectHooks_same {ixs ixs' : List (RegisteredIndex T)} {e : Exception T} {id : Id} {v : T}
    (h : ∀ ix ∈ ixs, ix.Tracks P S) (hv : S id.bits = some v)
    (he : collectHooks ctx (.update id v v) ixs = .error (e,ixs')) : ixs' = ixs := by
  induction ixs generalizing ixs' with
  | nil => cases he
  | cons ix rest ih =>
    have hq := (ix.expr.refines T P).quiet ctx S ix.state id v (h ix (by simp)).holds hv
    simp only [collectHooks] at he
    cases ho : (ix.expr.index T).onUpdate ctx (.update id v v) ix.state with
    | thrown e' s =>
      rw [ho] at hq he
      have hs : s = ix.state := hq
      cases he
      rw [hs]
    | returned hook s =>
      rw [ho] at hq
      have hs : s = ix.state := hq
      simp only [ho] at he
      split at he
      · rename_i e' rest' hrest
        cases he
        rw [ih (fun ix' hix => h ix' (by simp [hix])) hrest,hs]
      · cases he

theorem propagateUpdate_same {c : Collection T} {id : Id} {v : T} (h : ∀ ix ∈ c.indexes, ix.Tracks P S)
    (hv : S id.bits = some v) (hP : P id) :
    (∃ e, propagateUpdate (.update id v v) c = .thrown e c) ∨ (propagateUpdate (.update id v v) c).Returns := by
  have hu : (Update.update id v v).ValidAt S := hv
  have hd : ∀ ix ∈ c.indexes, ¬ix.expr.Defers S (.update id v v) :=
    fun ix hix => (ix.expr.refines T P).keeps_same S ix.state id v (h ix hix).holds hv
  by_cases hr : ∃ ix ∈ c.indexes, ix.expr.Rejects S (.update id v v)
  · obtain ⟨ixs,he⟩ := collectHooks_rejected c.context h hu hP hr
    refine .inl ⟨conflictException c.context id,?_⟩
    simp only [propagateUpdate,he,collectHooks_same c.context h hv he]
    rfl
  · have hc : ¬c.Clash S (.update id v v) := by
      rintro ⟨ix,hix,hr' | hd'⟩
      · exact hr ⟨ix,hix,hr'⟩
      · exact hd ix hix hd'
    obtain ⟨ixs,hrun,_⟩ := propagateUpdate_returned h hu hP hc
    exact .inr ⟨_,_,hrun⟩

theorem propagateUpdate_frame (u : Update T) (c : Collection T) :
    ∃ ixs, (propagateUpdate u c).state = { c with indexes := ixs } := by
  simp only [propagateUpdate]
  split
  · exact ⟨_,rfl⟩
  · rename_i ps _
    cases runHooks u ps <;> exact ⟨_,rfl⟩

end Collection

end ComposableIndexes
