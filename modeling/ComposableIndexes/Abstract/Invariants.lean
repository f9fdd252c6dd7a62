import ComposableIndexes.Abstract.Mentions
import ComposableIndexes.Abstract.Runs

namespace ComposableIndexes

open Procedure (Keeps Preserves)

variable {T : Type} {u : Update T} {ctx : IndexContext T} {I : (e : UnregisteredIndex T) → e.State → Prop}

-- `I` outlasts the update `u`, wherever an index stops in taking it up.
def Survives (I : (e : UnregisteredIndex T) → e.State → Prop) (ctx : IndexContext T) (u : Update T) : Prop :=
  ∀ e, Keeps (I e) (fun _ => True) (Keeps (I e) (fun _ => True) (fun _ => True)) ((e.index T).onUpdate ctx u)

namespace Survives

def At (I : (e : UnregisteredIndex T) → e.State → Prop) (ix : RegisteredIndex T) : Prop := I ix.expr ix.state

structure Ready (I : (e : UnregisteredIndex T) → e.State → Prop) (p : Prepared T) : Prop where
  state : I p.expr p.state
  hook : Keeps (I p.expr) (fun _ => True) (fun _ => True) p.hook

theorem receive (h : Survives I ctx u) : Keeps (At I) (fun _ => True) (fun _ => True) (RegisteredIndex.receive ctx u) := by
  intro ix hix
  have hr := (h ix.expr).bind (fun _ hh => hh) ix.state hix
  unfold RegisteredIndex.receive Index.deliver
  generalize ((ix.expr.index T).onUpdate ctx u >>= fun hook => hook) ix.state = o at hr
  cases hr with
  | returned _ hs => exact .returned trivial hs
  | thrown _ hs => exact .thrown trivial hs

theorem collectHooks (h : Survives I ctx u) {ixs : List (RegisteredIndex T)} (hixs : ∀ ix ∈ ixs, At I ix) :
    (∃ x ixs', Collection.collectHooks ctx u ixs = .error (x,ixs') ∧ ∀ ix ∈ ixs', At I ix) ∨
    ∃ ps, Collection.collectHooks ctx u ixs = .ok ps ∧ ∀ p ∈ ps, Ready I p := by
  induction ixs with
  | nil => exact .inr ⟨[],rfl,by simp⟩
  | cons ix rest ih =>
    obtain ⟨hix,hrest⟩ := List.forall_mem_cons.mp hixs
    have ho := h ix.expr ix.state hix
    simp only [Collection.collectHooks]
    generalize (ix.expr.index T).onUpdate ctx u ix.state = o at ho
    cases ho with
    | thrown _ hs => exact .inl ⟨_,_,rfl,List.forall_mem_cons.mpr ⟨hs,hrest⟩⟩
    | returned hh hs =>
      rcases ih hrest with ⟨x,ixs',he,hm⟩ | ⟨ps,he,hps⟩
      · rw [he]
        exact .inl ⟨_,_,rfl,List.forall_mem_cons.mpr ⟨hs,hm⟩⟩
      · rw [he]
        exact .inr ⟨_,rfl,List.forall_mem_cons.mpr ⟨⟨hs,hh⟩,hps⟩⟩

theorem runHooks (u : Update T) {ps : List (Prepared T)} (h : ∀ p ∈ ps, Ready I p) :
    ∀ ix ∈ (Collection.runHooks u ps).state, At I ix := by
  have hm : (Collection.runHooks u ps).Meets (fun ixs => ∀ ix ∈ ixs, At I ix) (fun _ => True) (fun _ => True) := by
    induction ps with
    | nil => exact .returned trivial (by simp)
    | cons p ps ih =>
      obtain ⟨hp,hps⟩ := List.forall_mem_cons.mp h
      have ho := hp.hook p.state hp.state
      simp only [Collection.runHooks]
      generalize p.hook p.state = o at ho
      cases ho with
      | returned _ hs => exact (ih hps).mapState (fun _ hixs => List.forall_mem_cons.mpr ⟨hs,hixs⟩)
      | thrown _ hs =>
        refine .thrown trivial (List.forall_mem_cons.mpr ⟨hs,?_⟩)
        intro ix hix
        obtain ⟨q,hq,rfl⟩ := List.mem_map.mp hix
        exact (hps q hq).state
  exact hm.state

theorem propagateUpdate [JsValue T] {c : Collection T} (h : Survives I c.context u) (hc : ∀ ix ∈ c.indexes, At I ix) :
    ∀ ix ∈ (Collection.propagateUpdate u c).state.indexes, At I ix := by
  unfold Collection.propagateUpdate
  rcases h.collectHooks hc with ⟨x,ixs',he,hm⟩ | ⟨ps,he,hps⟩
  · rw [he]
    exact hm
  · rw [he]
    have hm := runHooks u hps
    cases hr : Collection.runHooks u ps with
    | thrown e ixs =>
      rw [hr] at hm
      simp only [hr,Outcome.mapState]
      exact hm
    | returned a ixs =>
      rw [hr] at hm
      simp only [hr,Outcome.mapState]
      exact hm

end Survives

-- A property of the states of every index expression that nothing an index does can break.
structure StateInvariant (T : Type) where
  holds : (e : UnregisteredIndex T) → e.State → Prop
  kept : ∀ e, Confined (holds e) (fun _ => True) (e.index T)

namespace StateInvariant

open Survives (At)

variable (J : StateInvariant T)

theorem survives (ctx : IndexContext T) (u : Update T) : Survives J.holds ctx u := fun e =>
  ((J.kept e).onUpdate ctx u (Update.takes_of_id trivial)).imp (fun _ _ => trivial)
    (fun _ hh => hh.imp (fun _ _ => trivial) (fun _ _ => trivial))

variable {J}

theorem receiveAll (ctx : IndexContext T) (items : List (Id × T)) :
    Keeps (At J.holds) (fun _ => True) (fun _ => True) (RegisteredIndex.receiveAll ctx items) := by
  induction items with
  | nil => exact .pure trivial
  | cons p rest ih => exact Keeps.bind (A := fun _ => True) (J.survives ctx (.add p.1 p.2)).receive (fun _ _ => ih)

def Everywhere (J : StateInvariant T) (c : Collection T) : Prop := ∀ ix ∈ c.indexes, At J.holds ix

variable [JsValue T]

theorem propagateUpdate (u : Update T) : Preserves J.Everywhere (Collection.propagateUpdate u) :=
  fun c h => (J.survives c.context u).propagateUpdate h

theorem registerIndex (e : UnregisteredIndex T) : Preserves J.Everywhere (Collection.registerIndex e) := by
  intro c h
  have hnew : At J.holds (.new e) := (J.kept e).create
  have hall := (receiveAll (J := J) c.context c.store.entries _ hnew).state
  unfold Collection.registerIndex
  cases hr : RegisteredIndex.receiveAll c.context c.store.entries (.new e) with
  | thrown x ix => exact h
  | returned a ix =>
    rw [hr] at hall
    intro ix' hix
    rcases List.mem_append.mp hix with hix | hix
    · exact h ix' hix
    · rw [List.mem_singleton.mp hix]
      exact hall

theorem add (v : T) : Preserves J.Everywhere (Collection.add v) := by
  intro c h
  rw [Collection.add_apply,Procedure.bind_pure_state]
  exact propagateUpdate _ _ h

theorem set (id : Id) (v : T) : Preserves J.Everywhere (Collection.set id v) := by
  intro c h
  rw [Collection.set_apply]
  exact propagateUpdate _ _ h

theorem delete (id : Id) : Preserves J.Everywhere (Collection.delete id : Procedure (Exception T) (Collection T) (Option T)) := by
  intro c h
  cases hv : c.get id with
  | none =>
    rw [Collection.delete_absent hv]
    exact h
  | some v =>
    rw [Collection.delete_apply hv,Procedure.bind_pure_state]
    exact propagateUpdate _ _ h

theorem exec (call : Call T) : Preserves J.Everywhere call.exec := by
  cases call with
  | registerIndex e =>
    intro c h
    rw [Collection.state_exec_registerIndex]
    exact registerIndex e c h
  | add v => exact .bind (add v) (fun _ => .pure _)
  | set id v => exact set id v
  | delete id => exact .bind (delete id) (fun _ => .pure _)
  | alter id f => exact .bind (Collection.preserves_alter (delete id) (fun v _ => set id v) f) (fun _ => .pure _)
  | adjust id f => exact Collection.preserves_alter (delete id) (fun v _ => set id v) (Call.adjusted f)

theorem visited (J : StateInvariant T) {c : Collection T} (h : Visited Call.exec (fun _ _ => True) Collection.new c) :
    ∀ ix ∈ c.indexes, J.holds ix.expr ix.state :=
  h.invariant (I := J.Everywhere) (fun ix hix => absurd hix (by simp [Collection.new])) (fun c call hc _ => exec call c hc)

end StateInvariant

end ComposableIndexes
