import ComposableIndexes.Abstract.Calls

namespace ComposableIndexes

open Procedure (Lockstep)

structure Bisim {In Out σ τ : Type} (R : σ → τ → Prop) (ix : Index In Out σ) (ix' : Index In Out τ) : Prop where
  create : R ix.create ix'.create
  onUpdate : ∀ ctx u, Lockstep (Lockstep Eq R) R (ix.onUpdate ctx u) (ix'.onUpdate ctx u)

theorem Bisim.deliver {In Out σ τ : Type} {R : σ → τ → Prop} {ix : Index In Out σ} {ix' : Index In Out τ}
    (h : Bisim R ix ix') (ctx : IndexContext Out) (u : Update In) :
    Lockstep Eq R (ix.deliver ctx u) (ix'.deliver ctx u) :=
  (h.onUpdate ctx u).bind (fun _ _ hh => hh)

theorem Bisim.of_eq {In Out σ : Type} {ix ix' : Index In Out σ} (hc : ix.create = ix'.create)
    (h : ∀ ctx u, ix.onUpdate ctx u = ix'.onUpdate ctx u) : Bisim Eq ix ix' := by
  refine ⟨hc,?_⟩
  rintro ctx u s _ rfl
  rw [h]
  exact Outcome.Rel.refl Lockstep.refl _

namespace Collection

variable {T : Type} [JsValue T]

structure Alike (Q : List (RegisteredIndex T) → List (RegisteredIndex T) → Prop) (c c' : Collection T) : Prop where
  last : c'.last = c.last
  store : c'.store = c.store
  indexes : Q c.indexes c'.indexes

variable {Q : List (RegisteredIndex T) → List (RegisteredIndex T) → Prop}

theorem Alike.context_eq {c c' : Collection T} (h : Alike Q c c') : c'.context = c.context := by
  rw [context,context,h.store]

theorem propagateUpdate_lockstep {L : List (Prepared T) → List (Prepared T) → Prop} (u : Update T)
    (hcollect : ∀ ctx ixs ixs', Q ixs ixs' →
      (∃ x l l', collectHooks ctx u ixs = .error (x,l) ∧ collectHooks ctx u ixs' = .error (x,l') ∧ Q l l') ∨
      ∃ ps ps', collectHooks ctx u ixs = .ok ps ∧ collectHooks ctx u ixs' = .ok ps' ∧ L ps ps')
    (hrun : ∀ ps ps', L ps ps' → Outcome.Rel Eq Q (runHooks u ps) (runHooks u ps')) :
    Lockstep Eq (Alike Q) (propagateUpdate u) (propagateUpdate u) := by
  intro c c' h
  simp only [propagateUpdate,h.context_eq]
  rcases hcollect c.context _ _ h.indexes with ⟨x,l,l',hl,hl',hr⟩ | ⟨ps,ps',hps,hps',hr⟩
  · rw [hl,hl']
    exact .thrown x ⟨h.last,h.store,hr⟩
  · rw [hps,hps']
    exact (hrun ps ps' hr).mapState (fun _ _ hl => ⟨h.last,h.store,hl⟩)

section

variable (hprop : ∀ u, Lockstep Eq (Alike Q) (propagateUpdate u) (propagateUpdate u))
  (hreg : ∀ ixs ixs' ix, Q ixs ixs' → Q (ixs ++ [ix]) (ixs' ++ [ix]))

include hprop

theorem add_lockstep (v : T) : Lockstep Eq (Alike Q) (add v) (add v) := by
  unfold add
  refine Lockstep.bind (A := Eq) ?_ ?_
  · intro c c' h
    refine .returned (by rw [h.last]) ⟨?_,h.store,h.indexes⟩
    rw [h.last]
  · rintro id _ rfl
    refine Lockstep.bind (A := Eq) (.write ?_) (fun _ _ _ => .bind (A := Eq) (hprop _) (fun _ _ _ => .pure rfl))
    intro c c' h
    exact ⟨h.last,congrArg (IdMap.set · id v) h.store,h.indexes⟩

theorem delete_lockstep (id : Id) :
    Lockstep Eq (Alike Q) (delete id : Procedure (Exception T) (Collection T) (Option T)) (delete id) := by
  unfold delete
  refine Lockstep.bind (A := Eq) (.read ?_) ?_
  · intro c c' h
    rw [h.store]
  · rintro oldValue _ rfl
    cases oldValue with
    | none => exact .pure rfl
    | some oldValue =>
      refine Lockstep.bind (A := Eq) (.write ?_) (fun _ _ _ => .bind (A := Eq) (hprop _) (fun _ _ _ => .pure rfl))
      intro c c' h
      exact ⟨h.last,congrArg (IdMap.delete · id) h.store,h.indexes⟩

theorem set_lockstep (id : Id) (v : T) : Lockstep Eq (Alike Q) (set id v) (set id v) := by
  intro c c' h
  have hu : c'.setUpdate id v = c.setUpdate id v := by
    rw [setUpdate,setUpdate,Collection.get,Collection.get,h.store]
  have hl : c'.raisedLast id = c.raisedLast id := by
    rw [raisedLast,raisedLast,h.last]
  rw [set_apply,set_apply,hu,hl,h.store]
  exact hprop _ _ _ ⟨rfl,rfl,h.indexes⟩

theorem putBack_lockstep {Ret : Type} (id : Id) (r : Option T × Ret) :
    Lockstep Eq (Alike Q) (putBack id r) (putBack id r) := by
  obtain ⟨post,ret⟩ := r
  cases post with
  | none => exact .pure rfl
  | some v =>
    unfold putBack
    cases hv : JsValue.truthy v with
    | false => simpa [hv] using Lockstep.pure rfl
    | true => simpa [hv] using Lockstep.bind (A := Eq) (set_lockstep hprop id v) (fun _ _ _ => .pure rfl)

theorem alter_lockstep {Ret : Type} (id : Id) (f : Option T → Option T × Ret) :
    Lockstep Eq (Alike Q) (alter id f) (alter id f) := by
  intro c c' h
  have hg : c'.get id = c.get id := by
    rw [Collection.get,Collection.get,h.store]
  cases ht : JsValue.truthyOption (c.get id) with
  | false =>
    have ht' : JsValue.truthyOption (c'.get id) = false := by rw [hg,ht]
    rw [alter_keep f ht,alter_keep f ht',hg]
    exact putBack_lockstep hprop id _ c c' h
  | true =>
    have hd := delete_lockstep hprop id c c' h
    have ht' : JsValue.truthyOption (c'.get id) = true := by rw [hg,ht]
    cases ho : delete id c with
    | returned old c₁ =>
      rw [ho] at hd
      generalize ho' : delete id c' = o at hd
      cases hd with
      | returned _ hc =>
        rw [alter_drop f ht ho,alter_drop f ht' ho',hg]
        exact putBack_lockstep hprop id _ _ _ hc
    | thrown e c₁ =>
      rw [ho] at hd
      generalize ho' : delete id c' = o at hd
      cases hd with
      | thrown _ hc =>
        rw [alter_thrown f ht ho,alter_thrown f ht' ho']
        exact .thrown e hc

include hreg

theorem exec_lockstep (call : Call T) : Lockstep Eq (Alike Q) call.exec call.exec := by
  cases call with
  | registerIndex e =>
    intro c c' h
    simp only [Call.exec,registerIndex,h.context_eq,h.store]
    cases RegisteredIndex.receiveAll c.context c.store.entries (.new e) with
    | returned _ ix => exact .returned rfl ⟨h.last,rfl,hreg _ _ ix h.indexes⟩
    | thrown x ix => exact .thrown x h
  | add v => exact .bind (A := Eq) (add_lockstep hprop v) (fun _ _ _ => .pure rfl)
  | set id v => exact set_lockstep hprop id v
  | delete id => exact .bind (A := Eq) (delete_lockstep hprop id) (fun _ _ _ => .pure rfl)
  | alter id f => exact .bind (A := Eq) (alter_lockstep hprop id f) (fun _ _ _ => .pure rfl)
  | adjust id f => exact alter_lockstep hprop id (Call.adjusted f)

end

end Collection

section Replaced

variable {T : Type} {e e' : UnregisteredIndex T} {R : e.State → e'.State → Prop} {n : ℕ}

inductive Replaced (e e' : UnregisteredIndex T) (R : e.State → e'.State → Prop) :
    ℕ → List (RegisteredIndex T) → List (RegisteredIndex T) → Prop where
  | here {s : e.State} {s' : e'.State} (hs : R s s') (log : List (Update T)) (rest : List (RegisteredIndex T)) :
      Replaced e e' R 0 (⟨e,s,log⟩ :: rest) (⟨e',s',log⟩ :: rest)
  | later (ix : RegisteredIndex T) {n : ℕ} {ixs ixs' : List (RegisteredIndex T)} (h : Replaced e e' R n ixs ixs') :
      Replaced e e' R (n + 1) (ix :: ixs) (ix :: ixs')

inductive ReplacedPrepared (e e' : UnregisteredIndex T) (R : e.State → e'.State → Prop) :
    ℕ → List (Prepared T) → List (Prepared T) → Prop where
  | here {s : e.State} {s' : e'.State} {hook : Hook T e.State} {hook' : Hook T e'.State} (hs : R s s')
      (hh : Lockstep Eq R hook hook') (log : List (Update T)) (rest : List (Prepared T)) :
      ReplacedPrepared e e' R 0 (⟨e,s,hook,log⟩ :: rest) (⟨e',s',hook',log⟩ :: rest)
  | later (p : Prepared T) {n : ℕ} {ps ps' : List (Prepared T)} (h : ReplacedPrepared e e' R n ps ps') :
      ReplacedPrepared e e' R (n + 1) (p :: ps) (p :: ps')

theorem Replaced.append {ixs ixs' : List (RegisteredIndex T)} (h : Replaced e e' R n ixs ixs') (ix : RegisteredIndex T) :
    Replaced e e' R n (ixs ++ [ix]) (ixs' ++ [ix]) := by
  induction h with
  | here hs log rest => exact .here hs log (rest ++ [ix])
  | later ix' _ ih => exact .later ix' ih

theorem replaced_last (ixs : List (RegisteredIndex T)) {s : e.State} {s' : e'.State} (hs : R s s')
    (log : List (Update T)) : Replaced e e' R ixs.length (ixs ++ [⟨e,s,log⟩]) (ixs ++ [⟨e',s',log⟩]) := by
  induction ixs with
  | nil => exact .here hs log []
  | cons ix ixs ih => exact .later ix ih

theorem Replaced.split {ixs ixs' : List (RegisteredIndex T)} (h : Replaced e e' R n ixs ixs') :
    ∃ before s s' log after, before.length = n ∧ ixs = before ++ ⟨e,s,log⟩ :: after ∧ ixs' = before ++ ⟨e',s',log⟩ :: after ∧ R s s' := by
  induction h with
  | here hs log rest => exact ⟨[],_,_,log,rest,rfl,rfl,rfl,hs⟩
  | later ix _ ih =>
    obtain ⟨before,s,s',log,after,rfl,rfl,rfl,hs⟩ := ih
    exact ⟨ix :: before,s,s',log,after,rfl,rfl,rfl,hs⟩

theorem ReplacedPrepared.abandon {ps ps' : List (Prepared T)} (h : ReplacedPrepared e e' R n ps ps') :
    Replaced e e' R n (ps.map Prepared.abandon) (ps'.map Prepared.abandon) := by
  induction h with
  | here hs _ log rest => exact .here hs log _
  | later p _ ih => exact .later _ ih

namespace Collection

theorem collectHooks_replaced (hb : Bisim R (e.index T) (e'.index T)) (ctx : IndexContext T) (u : Update T)
    {ixs ixs' : List (RegisteredIndex T)} (h : Replaced e e' R n ixs ixs') :
    (∃ x l l', collectHooks ctx u ixs = .error (x,l) ∧ collectHooks ctx u ixs' = .error (x,l') ∧ Replaced e e' R n l l') ∨
    ∃ ps ps', collectHooks ctx u ixs = .ok ps ∧ collectHooks ctx u ixs' = .ok ps' ∧ ReplacedPrepared e e' R n ps ps' := by
  induction h with
  | @here s s' hs log rest =>
    have ho := hb.onUpdate ctx u s s' hs
    simp only [collectHooks]
    generalize (e.index T).onUpdate ctx u s = o at ho
    generalize (e'.index T).onUpdate ctx u s' = o' at ho
    cases ho with
    | thrown x hs => exact .inl ⟨x,_,_,rfl,rfl,.here hs log rest⟩
    | returned hh hs =>
      cases collectHooks ctx u rest with
      | error err => exact .inl ⟨err.1,_,_,rfl,rfl,.here hs log err.2⟩
      | ok ps => exact .inr ⟨_,_,rfl,rfl,.here hs hh log ps⟩
  | @later ix n ixs ixs' _ ih =>
    simp only [collectHooks]
    cases (ix.expr.index T).onUpdate ctx u ix.state with
    | thrown x s => exact .inl ⟨x,_,_,rfl,rfl,.later _ ‹_›⟩
    | returned hook s =>
      rcases ih with ⟨x,l,l',hl,hl',hr⟩ | ⟨ps,ps',hps,hps',hr⟩
      · rw [hl,hl']
        exact .inl ⟨x,_,_,rfl,rfl,.later _ hr⟩
      · rw [hps,hps']
        exact .inr ⟨_,_,rfl,rfl,.later _ hr⟩

theorem runHooks_replaced (u : Update T) {ps ps' : List (Prepared T)} (h : ReplacedPrepared e e' R n ps ps') :
    Outcome.Rel Eq (Replaced e e' R n) (runHooks u ps) (runHooks u ps') := by
  induction h with
  | @here s s' hook hook' hs hh log rest =>
    have ho := hh s s' hs
    simp only [runHooks]
    generalize hook s = o at ho
    generalize hook' s' = o' at ho
    cases ho with
    | thrown x hs => exact .thrown x (.here hs log _)
    | returned _ hs =>
      cases runHooks u rest with
      | returned _ l => exact .returned rfl (.here hs _ l)
      | thrown x l => exact .thrown x (.here hs _ l)
  | @later p n ps ps' hps ih =>
    simp only [runHooks]
    cases p.hook p.state with
    | thrown x s => exact .thrown x (.later _ hps.abandon)
    | returned _ s => exact ih.mapState (fun _ _ hl => .later _ hl)

variable [JsValue T]

theorem propagateUpdate_replaced (hb : Bisim R (e.index T) (e'.index T)) (n : ℕ) (u : Update T) :
    Lockstep Eq (Alike (Replaced e e' R n)) (propagateUpdate u) (propagateUpdate u) :=
  propagateUpdate_lockstep u (fun ctx _ _ => collectHooks_replaced hb ctx u) (fun _ _ => runHooks_replaced u)

theorem exec_replaced (hb : Bisim R (e.index T) (e'.index T)) (n : ℕ) (call : Call T) :
    Lockstep Eq (Alike (Replaced e e' R n)) call.exec call.exec :=
  exec_lockstep (propagateUpdate_replaced hb n) (fun _ _ ix h => h.append ix) call

end Collection

theorem receiveAll_replaced (hb : Bisim R (e.index T) (e'.index T)) (ctx : IndexContext T) (items : List (Id × T))
    {s : e.State} {s' : e'.State} (hs : R s s') (log : List (Update T)) :
    (∃ x ix ix', RegisteredIndex.receiveAll ctx items ⟨e,s,log⟩ = .thrown x ix ∧
      RegisteredIndex.receiveAll ctx items ⟨e',s',log⟩ = .thrown x ix') ∨
    ∃ t t' log', RegisteredIndex.receiveAll ctx items ⟨e,s,log⟩ = .returned () ⟨e,t,log'⟩ ∧
      RegisteredIndex.receiveAll ctx items ⟨e',s',log⟩ = .returned () ⟨e',t',log'⟩ ∧ R t t' := by
  induction items generalizing s s' log with
  | nil => exact .inr ⟨s,s',log,rfl,rfl,hs⟩
  | cons p rest ih =>
    obtain ⟨id,elem⟩ := p
    have ho := hb.deliver ctx (.add id elem) s s' hs
    simp only [RegisteredIndex.receiveAll,Procedure.bind_apply,RegisteredIndex.receive]
    generalize (e.index T).deliver ctx (.add id elem) s = o at ho
    generalize (e'.index T).deliver ctx (.add id elem) s' = o' at ho
    cases ho with
    | thrown x hs => exact .inl ⟨x,_,_,rfl,rfl⟩
    | returned _ hs => exact ih hs (log ++ [.add id elem])

namespace Collection

variable [JsValue T]

theorem registerIndex_replaced (hb : Bisim R (e.index T) (e'.index T)) (c : Collection T) :
    (∃ x, registerIndex e c = .thrown x c ∧ registerIndex e' c = .thrown x c) ∨
    ∃ s s' log, registerIndex e c = .returned ⟨e,s,log⟩ { c with indexes := c.indexes ++ [⟨e,s,log⟩] } ∧
      registerIndex e' c = .returned ⟨e',s',log⟩ { c with indexes := c.indexes ++ [⟨e',s',log⟩] } ∧ R s s' := by
  simp only [registerIndex,RegisteredIndex.new]
  rcases receiveAll_replaced hb c.context c.store.entries hb.create [] with ⟨x,ix,ix',hr,hr'⟩ | ⟨s,s',log,hr,hr',hs⟩
  · rw [hr,hr']
    exact .inl ⟨x,rfl,rfl⟩
  · rw [hr,hr']
    exact .inr ⟨s,s',log,rfl,rfl,hs⟩

theorem play_registered (hb : Bisim R (e.index T) (e'.index T)) {c : Collection T} (hc : (registerIndex e c).Returns)
    (calls : List (Call T)) :
    (Procedure.play Call.exec (.registerIndex e :: calls) c).1 = (Procedure.play Call.exec (.registerIndex e' :: calls) c).1 ∧
    Alike (Replaced e e' R c.indexes.length) (Procedure.play Call.exec (.registerIndex e :: calls) c).2
      (Procedure.play Call.exec (.registerIndex e' :: calls) c).2 := by
  rcases registerIndex_replaced hb c with ⟨x,hr,_⟩ | ⟨s,s',log,hr,hr',hs⟩
  · rw [hr] at hc
    exact absurd hc (Outcome.not_returns_thrown _ _)
  · have ha : Alike (Replaced e e' R c.indexes.length) { c with indexes := c.indexes ++ [⟨e,s,log⟩] }
        { c with indexes := c.indexes ++ [⟨e',s',log⟩] } := ⟨rfl,rfl,replaced_last c.indexes hs log⟩
    obtain ⟨hx,ha'⟩ := Procedure.play_lockstep (exec_replaced hb _) calls ha
    simp only [Procedure.play,Call.exec,hr,hr',Outcome.state]
    exact ⟨congrArg (List.cons none) hx,ha'⟩

theorem play_unregistered (hb : Bisim R (e.index T) (e'.index T)) {c : Collection T}
    (hc : ¬(registerIndex e c).Returns) (calls : List (Call T)) :
    Procedure.play Call.exec (.registerIndex e :: calls) c = Procedure.play Call.exec (.registerIndex e' :: calls) c := by
  rcases registerIndex_replaced hb c with ⟨x,hr,hr'⟩ | ⟨s,s',log,hr,_⟩
  · simp only [Procedure.play,Call.exec,hr,hr']
  · rw [hr] at hc
    exact absurd (Outcome.returns_returned _ _) hc

end Collection

end Replaced

end ComposableIndexes
