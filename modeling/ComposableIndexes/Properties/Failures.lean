import ComposableIndexes.Abstract.Runs

namespace ComposableIndexes

inductive SameIndex {T : Type} (ctx ctx' : IndexContext T) : RegisteredIndex T → RegisteredIndex T → Prop where
  | mk {e : UnregisteredIndex T} {s s' : e.State} {log log' : List (Update T)}
      (h : ∀ {R : Type} (q : Query T e R), q.run ctx s = q.run ctx' s') : SameIndex ctx ctx' ⟨e,s,log⟩ ⟨e,s',log'⟩

namespace Collection

variable {T : Type} [JsValue T] {P : Id → Prop} {c c' : Collection T}

structure SameAnswers (c c' : Collection T) : Prop where
  get : ∀ id, c.get id = c'.get id
  toList : c.toList = c'.toList
  queries : List.Forall₂ (SameIndex c.context c'.context) c.indexes c'.indexes

theorem sameAnswers_of_eq (hs : c'.store = c.store) (hi : c'.indexes = c.indexes) : SameAnswers c c' := by
  have hctx : c'.context = c.context := by
    rw [context,context,hs]
  refine ⟨fun id => ?_,?_,?_⟩
  · rw [Collection.get,Collection.get,hs]
  · rw [Collection.toList,Collection.toList,hs]
  · rw [hctx,hi]
    exact List.forall₂_same.mpr (fun ix _ => .mk (fun _ => rfl))

theorem set_same (hc : c.Consistent P) {id : Id} {v : T} (hP : P id) (hg : c.get id = some v) {e : Exception T}
    (hr : set id v c = .thrown e c') : c'.store = c.store ∧ c'.indexes = c.indexes := by
  have hv : c.contents id.bits = some v := (get_eq hc.defined id).symm.trans hg
  have hu : c.setUpdate id v = .update id v v := by
    rw [setUpdate,hg]
  rw [set_apply,hu,c.store.set_eq_self hv] at hr
  have ht : ∀ ix ∈ ({ c with last := c.raisedLast id } : Collection T).indexes, ix.Tracks P c.contents := hc.tracks
  rcases propagateUpdate_same ht hv hP with ⟨e',hs⟩ | ⟨a,c₁,hs⟩
  · rw [hs] at hr
    cases hr
    exact ⟨rfl,rfl⟩
  · rw [hs] at hr
    cases hr

theorem harmless_thrown (hPu : ∀ id : Id, id.Unsigned → P id) (hc : c.Consistent P) {call : Call T}
    (ha : call.Admissible P c) (hh : call.Harmless c) {e : Exception T} (hr : call.exec c = .thrown e c') :
    c'.store = c.store ∧ c'.indexes = c.indexes := by
  cases call with
  | registerIndex uIndex =>
    rcases registerIndex_cases hPu uIndex c with ⟨s,log,hs,_⟩ | ⟨R,id,v,_,hs⟩
    · simp only [Call.exec,hs] at hr
      cases hr
    · simp only [Call.exec,hs] at hr
      cases hr
      exact ⟨rfl,rfl⟩
  | set id v => exact set_same hc ha.2 hh hr
  | add v => exact hh.elim
  | delete id => exact hh.elim
  | alter id f => exact hh.elim
  | adjust id f => exact hh.elim

def Atomic (c : Collection T) (call : Call T) : Prop :=
  ∀ existingId existingValue c', call.exec c = .thrown (.conflict existingId existingValue) c' → SameAnswers c c'

theorem atomic_of_returns {call : Call T} {c' : Collection T} (hr : call.exec c = .returned () c') :
    c.Atomic call := by
  intro _ _ c₁ ht
  rw [hr] at ht
  cases ht

theorem get_written (c : Collection T) {id : Id} {v : T} (hv : JsValue.Defined v)
    (hs : c'.store = c.store.set id v) : c'.get id = some v := by
  refine get_of_contents ?_ hv
  rw [contents,hs,find_set_eq,PartialMap.set_self]

theorem add_atomic_iff (hc : c.Consistent P) {v : T} (hv : JsValue.Defined v) (hP : P c.nextId)
    (hf : c.contents c.nextId.bits = none) : c.Atomic (.add v) ↔ ¬c.Clash c.contents (.add c.nextId v) := by
  constructor
  · intro ha hn
    obtain ⟨c',hr,hs⟩ := add_thrown hc hP hf hn
    have hg := (ha _ _ c' (Procedure.bind_thrown hr)).get c.nextId
    rw [get_written c hv hs,get_eq hc.defined,hf] at hg
    cases hg
  · intro hn
    obtain ⟨c',hr,_⟩ := add_returned hc hv hP hf hn
    exact atomic_of_returns (Procedure.bind_returned hr)

theorem set_atomic_iff (hc : c.Consistent P) {id : Id} {v : T} (hv : JsValue.Defined v) (hP : P id) :
    c.Atomic (.set id v) ↔ ¬c.Clash c.contents (c.setUpdate id v) ∨ c.get id = some v := by
  constructor
  · intro ha
    by_cases hn : c.Clash c.contents (c.setUpdate id v)
    · obtain ⟨c',hr,hs⟩ := set_thrown hc hP hn
      have hg := (ha _ _ c' hr).get id
      rw [get_written c hv hs] at hg
      exact .inr hg
    · exact .inl hn
  · rintro (hn | hg)
    · obtain ⟨c',hr,_⟩ := set_returned hc hv hP hn
      exact atomic_of_returns hr
    · intro _ _ c' hr
      obtain ⟨hs,hi⟩ := set_same hc hP hg hr
      exact sameAnswers_of_eq hs hi

theorem failed_mutation_atomic_iff (h : Reached Call.exec Call.Proper new c) :
    (∀ v, (Call.add v).Proper c → (c.Atomic (.add v) ↔ ¬c.Clash c.contents (.add c.nextId v))) ∧
    ∀ id v, (Call.set id v).Proper c →
      (c.Atomic (.set id v) ↔ ¬c.Clash c.contents (c.setUpdate id v) ∨ c.get id = some v) := by
  have hc := proper_consistent h
  refine ⟨?_,?_⟩
  · intro v hv
    exact add_atomic_iff hc hv.defined trivial hv.fresh
  · intro id v hv
    exact set_atomic_iff hc hv.defined trivial

def takenCalls : List (Call ℕ) := [.registerIndex (.premap some .uniqueHashIndex),.add 5]

def taken : Collection ℕ := (Procedure.play Call.exec takenCalls new).2

theorem taken_reached : Reached Call.exec Call.Proper new taken :=
  Procedure.reached_play takenCalls .start (by decide)

theorem set_same_value_atomic : taken.Atomic (.set (Id.fromLong ⟨1,true⟩) 5) :=
  ((failed_mutation_atomic_iff taken_reached).2 _ 5 (by decide)).mpr (.inr rfl)

theorem conflicting_add_is_stored : Reached Call.exec Call.Proper new taken ∧
    ∃ existingId existingValue c', (Call.add 5).exec taken = .thrown (.conflict existingId existingValue) c' ∧
      taken.toList ≠ c'.toList :=
  ⟨taken_reached,_,_,_,rfl,by decide⟩

end Collection

namespace Call

variable {T : Type} [JsValue T]

structure Safe (c : Collection T) (call : Call T) : Prop extends call.Proper c where
  safe : ¬call.Conflict c ∨ call.Harmless c

end Call

namespace Collection

variable {T : Type} [JsValue T] {c : Collection T}

theorem safe_step {P : Id → Prop} (hPu : ∀ id : Id, id.Unsigned → P id) (hc : c.Consistent P) {call : Call T}
    (ha : call.Admissible P c) (hs : ¬call.Conflict c ∨ call.Harmless c) : (call.exec c).state.Consistent P := by
  rcases Call.exec_cases hPu hc call ha with ⟨_,c',hr,hc'⟩ | ⟨hcf,id,c',hr⟩
  · rw [hr]
    exact hc'
  · obtain ⟨hst,hix⟩ := harmless_thrown hPu hc ha (hs.resolve_left (not_not_intro hcf)) hr
    rw [hr]
    refine ⟨?_,?_⟩
    · simpa only [Outcome.state,contents,hst] using hc.defined
    · simpa only [Outcome.state,contents,hst,hix] using hc.tracks

theorem visited_consistent (h : Visited Call.exec Call.Safe new c) : c.Consistent (fun _ => True) :=
  h.invariant (consistent_new _)
    (fun _ _ hc hok => safe_step (fun _ _ => trivial) hc hok.toProper.admissible hok.safe)

theorem uniqueness_kept {K : Type} [DecidableEq K] {k : T → Option K} {s : UniqueHashIndex.State K}
    {log : List (Update T)} (h : Visited Call.exec Call.Safe new c)
    (hix : (⟨.premap k .uniqueHashIndex,s,log⟩ : RegisteredIndex T) ∈ c.indexes) (key : K) :
    (∀ p ∈ c.toList, ∀ q ∈ c.toList, k p.2 = some key → k q.2 = some key → p = q) ∧
    (∀ p ∈ c.toList, k p.2 = some key →
      ∃ it, UniqueHashIndex.eq c.context s key = some it ∧ it.id.bits = p.1.bits ∧ it.value = some p.2) ∧
    ((∀ p ∈ c.toList, k p.2 ≠ some key) → UniqueHashIndex.eq c.context s key = none) := by
  have hc := visited_consistent h
  have hs : UniqueHashIndex.Holds (fun _ => True) (c.contents.filterMap k) s := (hc.tracks _ hix).holds
  have hkey {p : Id × T} (hp : p ∈ c.toList) (hk : k p.2 = some key) :
      c.contents.filterMap k p.1.bits = some key := by
    simp [(mem_toList.mp hp).2,hk]
  refine ⟨?_,?_,?_⟩
  · intro p hp q hq hkp hkq
    have hb := UniqueHashIndex.holder_unique hs (hkey hp hkp) (hkey hq hkq)
    have hid := Id.eq_of_bits (mem_toList.mp hp).1 (mem_toList.mp hq).1 hb
    have hv := (mem_toList.mp hp).2
    rw [hid,(mem_toList.mp hq).2] at hv
    exact Prod.ext hid (Option.some.inj hv).symm
  · intro p hp hk
    obtain ⟨id,hg,hb⟩ := (hs.holder key p.1.bits).mpr (hkey hp hk)
    refine ⟨c.context.item id,by simp [UniqueHashIndex.eq,hg],hb,?_⟩
    have hv : c.get id = some p.2 := by
      rw [get_eq hc.defined,hb,(mem_toList.mp hp).2]
    exact hv
  · intro hn
    cases hg : s.get key with
    | none => simp [UniqueHashIndex.eq,hg]
    | some id =>
      have hS := hs.stored hg
      rw [PartialMap.filterMap_apply,Option.bind_eq_some_iff] at hS
      obtain ⟨v,hv,hk⟩ := hS
      exact absurd hk (hn (Id.fromLong ⟨id.bits,true⟩,v) (mem_toList.mpr ⟨rfl,hv⟩))

theorem taken_visited : Visited Call.exec Call.Safe new taken := by
  have h : Visited Call.exec Call.Safe new
      ((Call.registerIndex (.premap some .uniqueHashIndex)).exec (new : Collection ℕ)).state :=
    .step _ .start ⟨⟨trivial,trivial⟩,.inr trivial⟩
  refine h.step (Call.add 5) ⟨⟨rfl,rfl⟩,.inl ?_⟩
  rintro ⟨ix,hix,hcl⟩
  rw [List.mem_singleton.mp hix] at hcl
  rcases hcl with ⟨w,hw,hr⟩ | ⟨w,_,hd⟩
  · cases hw
    obtain ⟨i,hi⟩ := hr
    cases hi
  · exact hd

def rewriteCall : Call ℕ := .set (Id.fromLong ⟨1,true⟩) 5

theorem rewritten_visited : Visited Call.exec Call.Safe new (rewriteCall.exec taken).state :=
  taken_visited.step rewriteCall ⟨⟨rfl,trivial⟩,.inr rfl⟩

theorem eq_after_rewrite : ∃ s log,
    (⟨.premap some .uniqueHashIndex,s,log⟩ : RegisteredIndex ℕ) ∈ (rewriteCall.exec taken).state.indexes ∧
    ∃ it, UniqueHashIndex.eq (rewriteCall.exec taken).state.context s 5 = some it ∧ it.id.bits = 1 ∧
      it.value = some 5 :=
  ⟨_,_,List.mem_singleton.mpr rfl,(uniqueness_kept rewritten_visited (List.mem_singleton.mpr rfl) 5).2.1
    (Id.fromLong ⟨1,true⟩,5) (List.mem_singleton.mpr rfl) rfl⟩

def duplicateCalls : List (Call ℕ) :=
  [.registerIndex (.premap some .uniqueHashIndex),.add 5,.add 6,.set (Id.fromLong ⟨2,true⟩) 5]

theorem conflicting_set_duplicates_key :
    (Procedure.play Call.exec duplicateCalls new).1 = [none,none,none,some (.conflict (Id.fromLong ⟨2,true⟩) (some 5))] ∧
    ∃ p ∈ (Procedure.play Call.exec duplicateCalls new).2.toList,
      ∃ q ∈ (Procedure.play Call.exec duplicateCalls new).2.toList, p ≠ q ∧ some p.2 = some q.2 := by
  decide

end Collection

section TwoPhase

variable {T σ : Type}

def HookCompletes (ctx : IndexContext T) (u : Update T) (ix : RegisteredIndex T) : Prop :=
  ∀ hook s, (ix.expr.index T).onUpdate ctx u ix.state = .returned hook s → (hook s).Returns

def completes : Outcome (Exception T) σ (Hook T σ) → Bool
  | .returned hook s => decide (hook s).Returns
  | .thrown _ _ => true

instance (ctx : IndexContext T) (u : Update T) (ix : RegisteredIndex T) : Decidable (HookCompletes ctx u ix) :=
  decidable_of_iff (completes ((ix.expr.index T).onUpdate ctx u ix.state) = true) (by
    unfold HookCompletes
    cases (ix.expr.index T).onUpdate ctx u ix.state <;> simp [completes])

def AllOrNothing (ctx : IndexContext T) (u : Update T) (ixs : List (RegisteredIndex T)) : Prop :=
  (∃ error, Collection.collectHooks ctx u ixs = .error error) ∨
    ∃ ps, Collection.collectHooks ctx u ixs = .ok ps ∧ (Collection.runHooks u ps).Returns

variable {P : Id → Prop} {S : Contents T} {u : Update T}

theorem hookCompletes_iff (ctx : IndexContext T) {ix : RegisteredIndex T} (h : ix.Tracks P S) (hu : u.ValidAt S)
    (hP : P u.id) : HookCompletes ctx u ix ↔ ix.expr.Rejects S u ∨ ¬ix.expr.Defers S u := by
  have hv := (ix.expr.refines T P).onUpdate ctx S ix.state u h.holds hu hP
  unfold HookCompletes
  generalize (ix.expr.index T).onUpdate ctx u ix.state = o at hv
  cases hv with
  | rejected hr _ => exact iff_of_true (by simp) (.inl hr)
  | committed _ hd _ hh _ =>
    refine iff_of_true ?_ (.inr hd)
    intro hook s he
    cases he
    exact ⟨_,_,hh⟩
  | failed hr hd _ hh =>
    refine iff_of_false ?_ (by simp [hr,hd])
    intro hall
    have hret := hall _ _ rfl
    rw [hh] at hret
    exact Outcome.not_returns_thrown _ _ hret

theorem allOrNothing_iff (ctx : IndexContext T) {ixs : List (RegisteredIndex T)} (h : ∀ ix ∈ ixs, ix.Tracks P S)
    (hu : u.ValidAt S) (hP : P u.id) : AllOrNothing ctx u ixs ↔
      (∃ ix ∈ ixs, ix.expr.Rejects S u) ∨ ∀ ix ∈ ixs, ¬ix.expr.Defers S u := by
  by_cases hr : ∃ ix ∈ ixs, ix.expr.Rejects S u
  · obtain ⟨ixs',he⟩ := Collection.collectHooks_rejected ctx h hu hP hr
    exact iff_of_true (.inl ⟨_,he⟩) (.inl hr)
  · have hr' : ∀ ix ∈ ixs, ¬ix.expr.Rejects S u := fun ix hix hc => hr ⟨ix,hix,hc⟩
    obtain ⟨ps,hps,hready,hexpr⟩ := Collection.collectHooks_ready ctx h hu hP hr'
    have hdefers := Collection.defers_iff hexpr S u
    by_cases hd : ∃ ix ∈ ixs, ix.expr.Defers S u
    · obtain ⟨ixs',hrun⟩ := Collection.runHooks_thrown hready (hdefers.mpr hd)
      refine iff_of_false ?_ (by simpa [hr] using hd)
      rintro (⟨error,he⟩ | ⟨ps',hps',hret⟩)
      · rw [hps] at he
        cases he
      · rw [hps] at hps'
        cases hps'
        rw [hrun] at hret
        exact Outcome.not_returns_thrown _ _ hret
    · have hd' : ∀ p ∈ ps, ¬p.expr.Defers S u := fun p hp hc => hd (hdefers.mp ⟨p,hp,hc⟩)
      obtain ⟨ixs',hrun,_⟩ := Collection.runHooks_returned hready hd'
      exact iff_of_true (.inr ⟨ps,hps,_,_,hrun⟩) (.inr (fun ix hix hc => hd ⟨ix,hix,hc⟩))

theorem commit_after_validation_iff [JsValue T] {c : Collection T} (h : Reached Call.exec Call.Proper Collection.new c)
    (ctx : IndexContext T) {u : Update T} (hu : u.ValidAt c.contents) :
    (∀ ix ∈ c.indexes, HookCompletes ctx u ix ↔ ix.expr.Rejects c.contents u ∨ ¬ix.expr.Defers c.contents u) ∧
    (AllOrNothing ctx u c.indexes ↔
      (∃ ix ∈ c.indexes, ix.expr.Rejects c.contents u) ∨ ∀ ix ∈ c.indexes, ¬ix.expr.Defers c.contents u) := by
  have hc := Collection.proper_consistent h
  exact ⟨fun ix hix => hookCompletes_iff ctx (hc.tracks ix hix) hu trivial,
    allOrNothing_iff ctx hc.tracks hu trivial⟩

def groupedCalls : List (Call (ℕ × ℕ)) :=
  [.registerIndex (.premap (fun p => some p.2) .hashIndex),
    .registerIndex (.group Prod.fst (.premap (fun p => some p.2) .uniqueHashIndex)),.add (0,7),.add (1,7)]

def grouped : Collection (ℕ × ℕ) := (Procedure.play Call.exec groupedCalls Collection.new).2

theorem grouped_reached : Reached Call.exec Call.Proper Collection.new grouped :=
  Procedure.reached_play groupedCalls .start (by decide)

theorem delete_is_all_or_nothing :
    AllOrNothing grouped.context (.delete (Id.fromLong ⟨2,true⟩) (1,7)) grouped.indexes := by
  have hu : (Update.delete (Id.fromLong ⟨2,true⟩) (1,7)).ValidAt grouped.contents := rfl
  refine (commit_after_validation_iff grouped_reached grouped.context hu).2.mpr (.inr ?_)
  intro ix _ hd
  exact Collection.delete_no_clash _ _ _ _ (.inr hd)

theorem move_between_groups_throws_in_hook :
    Reached Call.exec Call.Proper Collection.new grouped ∧
    (∃ ix ∈ grouped.indexes, ¬HookCompletes grouped.context (.update (Id.fromLong ⟨2,true⟩) (1,7) (0,7)) ix) ∧
    ∃ e c', (Call.set (Id.fromLong ⟨2,true⟩) (0,7)).exec grouped = .thrown e c' ∧
      c'.indexes.map (fun ix => ix.log.length) = [3,2] :=
  ⟨grouped_reached,by decide,_,_,rfl,rfl⟩

end TwoPhase

end ComposableIndexes
