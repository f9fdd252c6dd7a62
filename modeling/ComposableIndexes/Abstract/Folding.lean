import ComposableIndexes.Abstract.Lockstep
import ComposableIndexes.Abstract.Runs

namespace ComposableIndexes

structure Folds {In Out σ S : Type} (ix : Index In Out σ) (core : σ → S) (init : S) (step : Update In → S → S) :
    Prop where
  create : core ix.create = init
  onUpdate : ∀ ctx u s, ∃ hook, ix.onUpdate ctx u s = .returned hook s ∧
    ∀ t, ∃ t', hook t = .returned () t' ∧ core t' = step u (core t)

namespace Folds

variable {In Out σ τ S S' : Type} {ix : Index In Out σ} {ix' : Index In Out τ} {core : σ → S} {core' : τ → S'} {init : S}
  {step : Update In → S → S}

theorem deliver (h : Folds ix core init step) (ctx : IndexContext Out) (u : Update In) (s : σ) :
    ∃ s', ix.deliver ctx u s = .returned () s' ∧ core s' = step u (core s) := by
  obtain ⟨hook,ho,hh⟩ := h.onUpdate ctx u s
  obtain ⟨s',hs,hc⟩ := hh s
  exact ⟨s',(Procedure.bind_returned ho).trans hs,hc⟩

theorem bisim {init' : S'} {step' : Update In → S' → S'} (h : Folds ix core init step) (h' : Folds ix' core' init' step')
    {R : S → S' → Prop} (hinit : R init init') (hstep : ∀ u a b, R a b → R (step u a) (step' u b)) :
    Bisim (fun s t => R (core s) (core' t)) ix ix' := by
  refine ⟨?_,?_⟩
  · rw [h.create,h'.create]
    exact hinit
  · intro ctx u s t hst
    obtain ⟨hook,ho,hh⟩ := h.onUpdate ctx u s
    obtain ⟨hook',ho',hh'⟩ := h'.onUpdate ctx u t
    rw [ho,ho']
    refine .returned ?_ hst
    intro s₁ t₁ h₁
    obtain ⟨s₂,hs,hc⟩ := hh s₁
    obtain ⟨t₂,ht,hc'⟩ := hh' t₁
    rw [hs,ht]
    refine .returned rfl ?_
    rw [hc,hc']
    exact hstep u _ _ h₁

end Folds

theorem PremapIndex.folds {In A Out σ S : Type} {inner : Index A Out σ} {core : σ → S} {init : S}
    {step : Update A → S → S} (f : In → Option A) (h : Folds inner core init step) :
    Folds (PremapIndex.index f inner) core init (fun u a => (filterMapUpdate f u).elim a (fun w => step w a)) := by
  refine ⟨h.create,?_⟩
  intro ctx u s
  cases hw : filterMapUpdate f u with
  | none =>
    refine ⟨Hook.skip,by simp only [PremapIndex.index,hw]; rfl,?_⟩
    exact fun t => ⟨t,rfl,rfl⟩
  | some w =>
    obtain ⟨hook,ho,hh⟩ := h.onUpdate ctx w s
    exact ⟨hook,by simp only [PremapIndex.index,hw]; exact ho,hh⟩

namespace FoldArgs

variable {I S W : Type}

def step (args : FoldArgs I S W) : Update I → S → S
  | .add _ value, state => args.add state value
  | .update _ oldValue newValue, state => args.update state oldValue newValue
  | .delete _ oldValue, state => args.delete state oldValue

def stepThrough {In : Type} (args : FoldArgs I S W) (pre : In → Option I) (u : Update In) (state : S) : S :=
  (filterMapUpdate pre u).elim state (fun w => args.step w state)

theorem folds {Out : Type} (args : FoldArgs I S W) :
    Folds (FoldIndex.index args : Index I Out S) id args.init args.step := by
  refine ⟨rfl,?_⟩
  intro ctx u s
  refine ⟨_,rfl,?_⟩
  intro t
  cases u <;> exact ⟨_,rfl,rfl⟩

end FoldArgs

namespace FoldArgs

variable {I S W : Type} {args : FoldArgs I S W} {A : Set I} {R : Contents I} {state : S} {i : BitVec 64} {v : I}

-- `Lawful` for the values of `A` only.
structure LawfulOn (args : FoldArgs I S W) (A : Set I) : Prop where
  add_comm : ∀ s a b, a ∈ A → b ∈ A → args.add (args.add s a) b = args.add (args.add s b) a
  delete_add : ∀ s a, a ∈ A → args.delete (args.add s a) a = s
  update_eq : ∀ s a b, a ∈ A → b ∈ A → args.update s a b = args.add (args.delete s a) b

theorem Lawful.on (h : args.Lawful) (A : Set I) : args.LawfulOn A :=
  ⟨fun s a b _ _ => h.add_comm s a b,fun s a _ => h.delete_add s a,fun s a b _ _ => h.update_eq s a b⟩

-- The state is what folding `add` over the stored values gives, in whatever order they are taken.
def Totals (args : FoldArgs I S W) (R : Contents I) (state : S) : Prop :=
  ∀ l : List I, (l : Multiset I) = R.values → state = l.foldl args.add args.init

theorem LawfulOn.foldl_perm (h : args.LawfulOn A) {l m : List I} (hp : l.Perm m) (hA : ∀ a ∈ l, a ∈ A) (s : S) :
    l.foldl args.add s = m.foldl args.add s :=
  hp.foldl_eq' (fun a ha b hb s => h.add_comm s a b (hA a ha) (hA b hb)) s

theorem totals_empty (args : FoldArgs I S W) : args.Totals PartialMap.empty args.init := by
  intro l hl
  rw [PartialMap.values_empty,Multiset.coe_eq_zero] at hl
  rw [hl]
  rfl

theorem totals_add (h : args.LawfulOn A) (hR : ∀ a ∈ R.values, a ∈ A) (hs : args.Totals R state) (hi : R i = none)
    (hv : v ∈ A) : args.Totals (R.set i v) (args.add state v) := by
  intro l hl
  rw [PartialMap.values_set_of_none hi] at hl
  have hperm : l.Perm (R.values.toList ++ [v]) := by
    rw [← Multiset.coe_eq_coe,hl,← Multiset.coe_add,Multiset.coe_toList,Multiset.coe_singleton,add_comm,
      Multiset.singleton_add]
  have hA : ∀ a ∈ l, a ∈ A := by
    intro a ha
    have ha' : a ∈ v ::ₘ R.values := by
      rw [← hl]
      exact ha
    rcases Multiset.mem_cons.mp ha' with rfl | ha'
    · exact hv
    · exact hR a ha'
  rw [h.foldl_perm hperm hA,List.foldl_append,← hs _ (Multiset.coe_toList _)]
  rfl

theorem totals_delete (h : args.LawfulOn A) (hs : args.Totals R state) (hi : R i = some v) (hv : v ∈ A) :
    args.Totals (R.erase i) (args.delete state v) := by
  intro l hl
  have hR : ((l ++ [v] : List I) : Multiset I) = R.values := by
    rw [PartialMap.values_of_erase hi,← hl,← Multiset.coe_add,Multiset.coe_singleton,add_comm,Multiset.singleton_add]
  rw [hs _ hR,List.foldl_append]
  exact h.delete_add _ v hv

end FoldArgs

def Update.Stores {T : Type} (V : Set T) : Update T → Prop
  | .add _ value => value ∈ V
  | .update _ _ newValue => newValue ∈ V
  | .delete _ _ => True

namespace FoldArgs

variable {I S W : Type} {args : FoldArgs I S W} {A : Set I} {R R' : Contents I} {state : S}

theorem values_apply {u : Update I} (hR : ∀ a ∈ R.values, a ∈ A) (hu : u.Stores A) : ∀ a ∈ (u.apply R).values, a ∈ A := by
  intro a ha
  obtain ⟨j,hj⟩ := PartialMap.mem_values.mp ha
  by_cases hi : j = u.id.bits
  · subst hi
    cases u <;> simp_all [Update.apply,Update.id,Update.Stores]
  · rw [u.apply_of_ne R hi] at hj
    exact hR a (PartialMap.mem_values.mpr ⟨j,hj⟩)

theorem totals_step (h : args.LawfulOn A) (hR : ∀ a ∈ R.values, a ∈ A) (hs : args.Totals R state) {u : Update I}
    (hu : u.ValidAt R) (hv : u.Stores A) : args.Totals (u.apply R) (args.step u state) := by
  cases u with
  | add id v => exact totals_add h hR hs hu hv
  | delete id v => exact totals_delete h hs hu (hR v (PartialMap.mem_values.mpr ⟨_,hu⟩))
  | update id v w =>
    have hvA : v ∈ A := hR v (PartialMap.mem_values.mpr ⟨_,hu⟩)
    have hd := totals_delete h hs hu hvA
    have herase : ∀ a ∈ (R.erase id.bits).values, a ∈ A := values_apply (u := .delete id v) hR trivial
    have hd' := totals_add h herase hd (R.erase_self id.bits) hv
    rw [PartialMap.erase_set] at hd'
    rw [step,h.update_eq _ _ _ hvA hv]
    exact hd'

theorem totals_log (h : args.LawfulOn A) {log : List (Update I)} (hlog : ValidLog R log R') (hv : ∀ u ∈ log, u.Stores A)
    (hR : ∀ a ∈ R.values, a ∈ A) (hs : args.Totals R state) :
    args.Totals R' (log.foldl (fun s u => args.step u s) state) := by
  induction log generalizing R state with
  | nil =>
    cases hlog
    exact hs
  | cons u log ih =>
    obtain ⟨hu,hus⟩ := List.forall_mem_cons.mp hv
    exact ih hlog.2 hus (values_apply hR hu) (totals_step h hR hs hlog.1 hu)

end FoldArgs

end ComposableIndexes
