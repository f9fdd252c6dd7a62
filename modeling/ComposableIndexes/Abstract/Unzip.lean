import ComposableIndexes.Abstract.Lockstep

namespace ComposableIndexes

open Procedure (Lockstep)

variable {T : Type}

-- A zip and its components registered one by one: the states are the same, the ghost logs need not be.
inductive Unzipped : (e : UnregisteredIndex T) → e.State → List (RegisteredIndex T) → Prop where
  | nil : Unzipped .zipNil () []
  | cons {head tail : UnregisteredIndex T} (s : head.State) {t : tail.State} (log : List (Update T))
      {parts : List (RegisteredIndex T)} (h : Unzipped tail t parts) :
      Unzipped (.zipCons head tail) (s,t) (⟨head,s,log⟩ :: parts)

inductive UnzippedPrepared : (e : UnregisteredIndex T) → e.State → Hook T e.State → List (Prepared T) → Prop where
  | nil : UnzippedPrepared .zipNil () Hook.skip []
  | cons {head tail : UnregisteredIndex T} (s : head.State) {t : tail.State} (hook : Hook T head.State)
      {hooks : Hook T tail.State} (log : List (Update T)) {ps : List (Prepared T)}
      (h : UnzippedPrepared tail t hooks ps) : UnzippedPrepared (.zipCons head tail) (s,t)
        (Hook.andThen (Procedure.first hook) (Procedure.second hooks)) (⟨head,s,hook,log⟩ :: ps)

theorem UnzippedPrepared.abandon {e : UnregisteredIndex T} {s : e.State} {hook : Hook T e.State} {ps : List (Prepared T)}
    (h : UnzippedPrepared e s hook ps) : Unzipped e s (ps.map Prepared.abandon) := by
  induction h with
  | nil => exact .nil
  | cons s hook log _ ih => exact .cons s log ih

namespace Collection

theorem collectHooks_append (ctx : IndexContext T) (u : Update T) (xs ys : List (RegisteredIndex T)) :
    collectHooks ctx u (xs ++ ys) = match collectHooks ctx u xs with
      | .error (e,xs') => .error (e,xs' ++ ys)
      | .ok ps =>
          match collectHooks ctx u ys with
          | .error (e,ys') => .error (e,ps.map Prepared.abandon ++ ys')
          | .ok qs => .ok (ps ++ qs) := by
  induction xs with
  | nil =>
    simp only [List.nil_append,collectHooks]
    cases collectHooks ctx u ys with
    | error err => rfl
    | ok qs => rfl
  | cons ix xs ih =>
    simp only [List.cons_append,collectHooks,ih]
    cases (ix.expr.index T).onUpdate ctx u ix.state with
    | thrown e s => rfl
    | returned hook s =>
      cases collectHooks ctx u xs with
      | error err => rfl
      | ok ps =>
        cases collectHooks ctx u ys with
        | error err => rfl
        | ok qs => rfl

theorem runHooks_append (u : Update T) (ps qs : List (Prepared T)) :
    runHooks u (ps ++ qs) = match runHooks u ps with
      | .thrown e xs => .thrown e (xs ++ qs.map Prepared.abandon)
      | .returned _ xs => (runHooks u qs).mapState (fun ys => xs ++ ys) := by
  induction ps with
  | nil =>
    simp only [List.nil_append,runHooks]
    cases runHooks u qs <;> rfl
  | cons p ps ih =>
    simp only [List.cons_append,runHooks,ih]
    cases p.hook p.state with
    | thrown e s => simp
    | returned _ s =>
      cases runHooks u ps with
      | thrown e xs => rfl
      | returned _ xs => cases runHooks u qs <;> rfl

theorem collectHooks_unzipped (ctx : IndexContext T) (u : Update T) {e : UnregisteredIndex T} {s : e.State}
    {parts : List (RegisteredIndex T)} (h : Unzipped e s parts) :
    (∃ x s' parts', (e.index T).onUpdate ctx u s = .thrown x s' ∧ collectHooks ctx u parts = .error (x,parts') ∧
      Unzipped e s' parts') ∨
    ∃ hook s' ps, (e.index T).onUpdate ctx u s = .returned hook s' ∧ collectHooks ctx u parts = .ok ps ∧
      UnzippedPrepared e s' hook ps := by
  induction h with
  | nil => exact .inr ⟨_,_,_,rfl,rfl,.nil⟩
  | @cons head tail s t log parts h ih =>
    simp only [collectHooks]
    cases ho : (head.index T).onUpdate ctx u s with
    | thrown x s' => exact .inl ⟨x,(s',t),_,Procedure.bind_thrown (Procedure.first_thrown ho t),rfl,.cons s' log h⟩
    | returned hook s' =>
      have hz : ((UnregisteredIndex.zipCons head tail).index T).onUpdate ctx u (s,t) = _ :=
        Procedure.bind_returned (Procedure.first_returned ho t)
      rcases ih with ⟨x,t',parts',ht,hp,hu⟩ | ⟨hooks,t',ps,ht,hp,hu⟩
      · refine .inl ⟨x,(s',t'),_,hz.trans (Procedure.bind_thrown (Procedure.second_thrown ht s')),?_,.cons s' log hu⟩
        rw [hp]
      · refine .inr ⟨_,(s',t'),_,hz.trans (Procedure.bind_returned (Procedure.second_returned ht s')),?_,.cons s' hook log hu⟩
        rw [hp]

theorem runHooks_unzipped (u : Update T) {e : UnregisteredIndex T} {s : e.State} {hook : Hook T e.State}
    {ps : List (Prepared T)} (h : UnzippedPrepared e s hook ps) :
    Outcome.Rel Eq (Unzipped e) (hook s) (runHooks u ps) := by
  induction h with
  | nil => exact .returned rfl .nil
  | @cons head tail s t hook hooks log ps h ih =>
    simp only [runHooks]
    cases ho : hook s with
    | thrown x s' =>
      exact .of_eq (Hook.andThen_thrown (Procedure.first_thrown ho t)) (.thrown x (.cons s' log h.abandon))
    | returned _ s' =>
      exact .of_eq (Hook.andThen_returned (Procedure.first_returned ho t)) (ih.mapState (fun t' parts hp => .cons s' _ hp))

end Collection

inductive Unzips (e : UnregisteredIndex T) : ℕ → List (RegisteredIndex T) → List (RegisteredIndex T) → Prop where
  | here {s : e.State} {parts : List (RegisteredIndex T)} (h : Unzipped e s parts) (log : List (Update T))
      (rest : List (RegisteredIndex T)) : Unzips e 0 (⟨e,s,log⟩ :: rest) (parts ++ rest)
  | later (ix : RegisteredIndex T) {n : ℕ} {ixs ixs' : List (RegisteredIndex T)} (h : Unzips e n ixs ixs') :
      Unzips e (n + 1) (ix :: ixs) (ix :: ixs')

inductive UnzipsPrepared (e : UnregisteredIndex T) : ℕ → List (Prepared T) → List (Prepared T) → Prop where
  | here {s : e.State} {hook : Hook T e.State} {ps : List (Prepared T)} (h : UnzippedPrepared e s hook ps)
      (log : List (Update T)) (rest : List (Prepared T)) : UnzipsPrepared e 0 (⟨e,s,hook,log⟩ :: rest) (ps ++ rest)
  | later (p : Prepared T) {n : ℕ} {ps ps' : List (Prepared T)} (h : UnzipsPrepared e n ps ps') :
      UnzipsPrepared e (n + 1) (p :: ps) (p :: ps')

section

variable {e : UnregisteredIndex T} {n : ℕ}

theorem Unzips.append {ixs ixs' : List (RegisteredIndex T)} (h : Unzips e n ixs ixs') (ix : RegisteredIndex T) :
    Unzips e n (ixs ++ [ix]) (ixs' ++ [ix]) := by
  induction h with
  | here hu log rest =>
    rw [List.append_assoc]
    exact .here hu log (rest ++ [ix])
  | later ix' _ ih => exact .later ix' ih

theorem unzips_last (ixs : List (RegisteredIndex T)) {s : e.State} {parts : List (RegisteredIndex T)}
    (h : Unzipped e s parts) (log : List (Update T)) : Unzips e ixs.length (ixs ++ [⟨e,s,log⟩]) (ixs ++ parts) := by
  induction ixs with
  | nil => simpa using Unzips.here h log []
  | cons ix ixs ih => exact .later ix ih

theorem Unzips.split {ixs ixs' : List (RegisteredIndex T)} (h : Unzips e n ixs ixs') :
    ∃ before s log parts after, before.length = n ∧ ixs = before ++ ⟨e,s,log⟩ :: after ∧
      ixs' = before ++ (parts ++ after) ∧ Unzipped e s parts := by
  induction h with
  | here hu log rest => exact ⟨[],_,log,_,rest,rfl,rfl,rfl,hu⟩
  | later ix _ ih =>
    obtain ⟨before,s,log,parts,after,rfl,rfl,rfl,hu⟩ := ih
    exact ⟨ix :: before,s,log,parts,after,rfl,rfl,rfl,hu⟩

theorem UnzipsPrepared.abandon {ps ps' : List (Prepared T)} (h : UnzipsPrepared e n ps ps') :
    Unzips e n (ps.map Prepared.abandon) (ps'.map Prepared.abandon) := by
  induction h with
  | here hu log rest =>
    rw [List.map_append]
    exact .here hu.abandon log _
  | later p _ ih => exact .later _ ih

namespace Collection

theorem collectHooks_unzips (ctx : IndexContext T) (u : Update T) {ixs ixs' : List (RegisteredIndex T)}
    (h : Unzips e n ixs ixs') :
    (∃ x l l', collectHooks ctx u ixs = .error (x,l) ∧ collectHooks ctx u ixs' = .error (x,l') ∧ Unzips e n l l') ∨
    ∃ ps ps', collectHooks ctx u ixs = .ok ps ∧ collectHooks ctx u ixs' = .ok ps' ∧ UnzipsPrepared e n ps ps' := by
  induction h with
  | @here s parts hu log rest =>
    rw [collectHooks_append]
    simp only [collectHooks]
    rcases collectHooks_unzipped ctx u hu with ⟨x,s',parts',hs,hp,hu'⟩ | ⟨hook,s',ps,hs,hp,hu'⟩
    · rw [hs,hp]
      exact .inl ⟨x,_,_,rfl,rfl,.here hu' log rest⟩
    · rw [hs,hp]
      cases collectHooks ctx u rest with
      | error err => exact .inl ⟨err.1,_,_,rfl,rfl,.here hu'.abandon log err.2⟩
      | ok qs => exact .inr ⟨_,_,rfl,rfl,.here hu' log qs⟩
  | @later ix n ixs ixs' hixs ih =>
    simp only [collectHooks]
    cases (ix.expr.index T).onUpdate ctx u ix.state with
    | thrown x s => exact .inl ⟨x,_,_,rfl,rfl,.later _ hixs⟩
    | returned hook s =>
      rcases ih with ⟨x,l,l',hl,hl',hr⟩ | ⟨ps,ps',hps,hps',hr⟩
      · rw [hl,hl']
        exact .inl ⟨x,_,_,rfl,rfl,.later _ hr⟩
      · rw [hps,hps']
        exact .inr ⟨_,_,rfl,rfl,.later _ hr⟩

theorem runHooks_unzips (u : Update T) {ps ps' : List (Prepared T)} (h : UnzipsPrepared e n ps ps') :
    Outcome.Rel Eq (Unzips e n) (runHooks u ps) (runHooks u ps') := by
  induction h with
  | @here s hook ps hu log rest =>
    rw [runHooks_append]
    simp only [runHooks]
    have hr := runHooks_unzipped u hu
    generalize hook s = o at hr
    generalize runHooks u ps = o' at hr
    cases hr with
    | thrown x hu' => exact .thrown x (.here hu' log _)
    | returned _ hu' =>
      cases runHooks u rest with
      | returned _ l => exact .returned rfl (.here hu' _ l)
      | thrown x l => exact .thrown x (.here hu' _ l)
  | @later p n ps ps' hps ih =>
    simp only [runHooks]
    cases p.hook p.state with
    | thrown x s => exact .thrown x (.later _ hps.abandon)
    | returned _ s => exact ih.mapState (fun _ _ hl => .later _ hl)

variable [JsValue T]

theorem propagateUpdate_unzips (e : UnregisteredIndex T) (n : ℕ) (u : Update T) :
    Lockstep Eq (Alike (Unzips e n)) (propagateUpdate u) (propagateUpdate u) :=
  propagateUpdate_lockstep u (fun ctx _ _ => collectHooks_unzips ctx u) (fun _ _ => runHooks_unzips u)

theorem exec_unzips (e : UnregisteredIndex T) (n : ℕ) (call : Call T) :
    Lockstep Eq (Alike (Unzips e n)) call.exec call.exec :=
  exec_lockstep (propagateUpdate_unzips e n) (fun _ _ ix h => h.append ix) call

end Collection

end

end ComposableIndexes
