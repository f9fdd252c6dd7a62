import ComposableIndexes.Abstract.Journal

namespace ComposableIndexes

def Presents {I S W In V : Type} (Out : Type) (args : FoldArgs I S W) (a : UnregisteredAggregateIndex In V)
    (pre : In → Option I) (post : W → V) : Prop :=
  ∃ core : a.State → S, Folds (a.index Out) core args.init (args.stepThrough pre) ∧
    ∀ s, a.value s = post (args.result (core s))

theorem presents_fold {I S W : Type} (Out : Type) (args : FoldArgs I S W) :
    Presents Out args (.fold args) some (fun w => w) := by
  refine ⟨id,?_,fun _ => rfl⟩
  have hstep : args.stepThrough some = args.step := by
    funext u state
    rw [FoldArgs.stepThrough,filterMapUpdate_some]
    rfl
  rw [hstep]
  exact args.folds

theorem presents_mapAggregate {I S W In V : Type} [JsValue I] [JsValue In] (Out : Type) (args : FoldArgs I S W)
    (pre : Option In → Option I) (post : W → V) :
    Presents Out args (.mapAggregate (.fold args) pre post) (JsValue.onValues pre) post :=
  ⟨id,PremapIndex.folds _ args.folds,fun _ => rfl⟩

theorem FoldArgs.stepThrough_bind {I S W In A : Type} (args : FoldArgs I S W) (f : In → Option A)
    (pre : A → Option I) (u : Update In) (state : S) :
    (filterMapUpdate f u).elim state (fun w => args.stepThrough pre w state) =
      args.stepThrough (fun x => (f x).bind pre) u state := by
  rw [FoldArgs.stepThrough,← filterMapUpdate_bind]
  cases filterMapUpdate f u <;> rfl

inductive Chain (I W : Type) [JsValue I] : (J : Type) → [JsValue J] → Type → Type 1 where
  | nil : Chain I W I W
  | map {J V V' : Type} [JsValue J] (ch : Chain I W J V) (f : V → V') : Chain I W J V'
  | premap {J J' V : Type} [JsValue J] [JsValue J'] (ch : Chain I W J V) (f : Option J' → Option J) : Chain I W J' V

namespace Chain

variable {I W J V : Type} [JsValue I] [JsValue J]

def apply (a : UnregisteredAggregateIndex I W) : {J V : Type} → [JsValue J] → Chain I W J V →
    UnregisteredAggregateIndex J V
  | _, _, _, .nil => a
  | _, _, _, @map _ _ _ _ _ _ _ ch f => (apply a ch).map f
  | _, _, _, @premap _ _ _ _ _ _ _ _ ch f => (apply a ch).premap f

-- What the functions of a chain make of a value, the outermost first, when each may drop it.
def feed : {J V : Type} → [JsValue J] → Chain I W J V → J → Option I
  | _, _, _, .nil => some
  | _, _, _, @map _ _ _ _ _ _ _ ch _ => feed ch
  | _, _, _, @premap _ _ _ _ _ _ _ _ ch f => fun x => (JsValue.onValues f x).bind (feed ch)

-- The one function that the code makes of them.
def fused : {J V : Type} → [JsValue J] → Chain I W J V → Option J → Option I
  | _, _, _, .nil => fun x => x
  | _, _, _, @map _ _ _ _ _ _ _ ch _ => fused ch
  | _, _, _, @premap _ _ _ _ _ _ _ _ ch f => fun x => fused ch ((f x).bind JsValue.orUndefined)

def filter (ch : Chain I W J V) : J → Option I :=
  match ch with
  | .nil => some
  | @map _ _ _ _ _ _ _ ch _ => JsValue.onValues ch.fused
  | @premap _ _ _ _ _ _ _ _ ch f => JsValue.onValues (fun x => ch.fused ((f x).bind JsValue.orUndefined))

def result : {J V : Type} → [JsValue J] → Chain I W J V → W → V
  | _, _, _, .nil => fun w => w
  | _, _, _, @map _ _ _ _ _ _ _ ch f => fun w => f (result ch w)
  | _, _, _, @premap _ _ _ _ _ _ _ _ ch _ => result ch

theorem fused_of_feed (ch : Chain I W J V) {x : J} {y : I} (h : ch.feed x = some y) :
    ch.fused (JsValue.orUndefined x) = JsValue.orUndefined y := by
  induction ch with
  | nil =>
    cases h
    rfl
  | map ch f ih => exact ih h
  | premap ch f ih =>
    obtain ⟨z,hz,hy⟩ := Option.bind_eq_some_iff.mp h
    have hf : (f (JsValue.orUndefined x)).bind JsValue.orUndefined = some z := hz
    simp only [fused,hf]
    rw [← JsValue.orUndefined_of_defined (JsValue.defined_of_onValues hz)]
    exact ih hy

theorem feed_defined (ch : Chain I W J V) {x : J} {y : I} (hx : JsValue.Defined x) (h : ch.feed x = some y) :
    JsValue.Defined y := by
  induction ch with
  | nil =>
    cases h
    exact hx
  | map ch f ih => exact ih hx h
  | premap ch f ih =>
    obtain ⟨z,hz,hy⟩ := Option.bind_eq_some_iff.mp h
    exact ih (JsValue.defined_of_onValues hz) hy

theorem filter_of_defined (ch : Chain I W J V) {x : J} (hx : JsValue.Defined x) :
    ch.filter x = JsValue.onValues ch.fused x := by
  cases ch with
  | nil =>
    rw [filter,JsValue.onValues,fused,JsValue.orUndefined_of_defined hx,Option.bind_some,
      JsValue.orUndefined_of_defined hx]
  | map ch f => rfl
  | premap ch f => rfl

-- `pre` is the chain's function up to what an `undefined` result is written as.
def Fuses (ch : Chain I W J V) (pre : Option J → Option I) : Prop :=
  ∀ x, (pre x).bind JsValue.orUndefined = (ch.fused x).bind JsValue.orUndefined

theorem Fuses.onValues_eq {ch : Chain I W J V} {pre : Option J → Option I} (h : ch.Fuses pre) :
    JsValue.onValues pre = JsValue.onValues ch.fused :=
  funext fun x => h (JsValue.orUndefined x)

theorem apply_normal {S : Type} (args : FoldArgs I S W) (ch : Chain I W J V) :
    (∀ {V' : Type} (f : V → V'), ∃ pre, ch.Fuses pre ∧ (ch.apply (.fold args)).map f =
      .mapAggregate (.fold args) pre (fun w => f (ch.result w))) ∧
    ∀ {J' : Type} [JsValue J'] (f : Option J' → Option J), ∃ pre, (Chain.premap ch f).Fuses pre ∧
      (ch.apply (.fold args)).premap f = .mapAggregate (.fold args) pre ch.result := by
  induction ch with
  | nil => exact ⟨fun f => ⟨_,fun x => rfl,rfl⟩,fun f => ⟨f,fun x => (JsValue.bind_orUndefined (f x)).symm,rfl⟩⟩
  | map ch g ih =>
    obtain ⟨pre,hpre,he⟩ := ih.1 g
    rw [apply,he]
    exact ⟨fun f => ⟨pre,hpre,rfl⟩,fun f => ⟨_,fun x => hpre _,rfl⟩⟩
  | premap ch g ih =>
    obtain ⟨pre,hpre,he⟩ := ih.2 g
    rw [apply,he]
    exact ⟨fun f => ⟨pre,hpre,rfl⟩,fun f => ⟨_,fun x => hpre _,rfl⟩⟩

theorem presents {S : Type} (Out : Type) (args : FoldArgs I S W) (ch : Chain I W J V) :
    Presents Out args (ch.apply (.fold args)) ch.filter ch.result := by
  cases ch with
  | nil => exact presents_fold Out args
  | map ch f =>
    obtain ⟨pre,hpre,he⟩ := (apply_normal args ch).1 f
    rw [apply,he,filter,← hpre.onValues_eq]
    exact presents_mapAggregate Out args _ _
  | premap ch f =>
    obtain ⟨pre,hpre,he⟩ := (apply_normal args ch).2 f
    rw [apply,he]
    have hp := presents_mapAggregate Out args pre ch.result
    rwa [hpre.onValues_eq] at hp

def append (ch : Chain I W J V) : {K U : Type} → [JsValue K] → Chain J V K U → Chain I W K U
  | _, _, _, .nil => ch
  | _, _, _, @map _ _ _ _ _ _ _ ch' f => .map (append ch ch') f
  | _, _, _, @premap _ _ _ _ _ _ _ _ ch' f => .premap (append ch ch') f

variable {K U : Type} [JsValue K]

theorem apply_append (a : UnregisteredAggregateIndex I W) (ch : Chain I W J V) (ch' : Chain J V K U) :
    (ch.append ch').apply a = ch'.apply (ch.apply a) := by
  induction ch' with
  | nil => rfl
  | map ch' f ih => rw [append,apply,ih,apply]
  | premap ch' f ih => rw [append,apply,ih,apply]

theorem fused_append (ch : Chain I W J V) (ch' : Chain J V K U) (x : Option K) :
    (ch.append ch').fused x = ch.fused (ch'.fused x) := by
  induction ch' with
  | nil => rfl
  | map ch' f ih => exact ih x
  | premap ch' f ih => exact ih _

theorem result_append (ch : Chain I W J V) (ch' : Chain J V K U) (w : W) :
    (ch.append ch').result w = ch'.result (ch.result w) := by
  induction ch' with
  | nil => rfl
  | map ch' f ih => exact congrArg f ih
  | premap ch' f ih => exact ih

-- On a value other than `undefined` that no function of the outer chain drops the two readings agree.
theorem filter_append_of_feed (ch : Chain I W J V) (ch' : Chain J V K U) {x : K} {y : J} (hx : JsValue.Defined x)
    (hy : ch'.feed x = some y) : (ch.append ch').filter x = ch.filter y := by
  rw [filter_of_defined _ hx,filter_of_defined _ (ch'.feed_defined hx hy),JsValue.onValues,JsValue.onValues,fused_append,
    ch'.fused_of_feed hy]

end Chain

section Composition

variable {I W J V K U : Type} [JsValue J] [JsValue K]

def ComposesOn (a : UnregisteredAggregateIndex J V) (ch : Chain J V K U) (c : Collection K) (calls : List (Call K)) :
    Prop :=
  (Procedure.play Call.exec (.registerIndex (.aggregate (ch.apply a)) :: calls) c).1 =
    (Procedure.play Call.exec (.registerIndex (.premap ch.feed (.aggregate a)) :: calls) c).1 ∧
  ∃ before after s s' log, c.Holding calls (.aggregate (ch.apply a)) s before after log ∧
    c.Holding calls (.premap ch.feed (.aggregate a)) s' before after log ∧ (ch.apply a).value s = ch.result (a.value s')

variable [JsValue I] {S : Type} (args : FoldArgs I S W) (inner : Chain I W J V) (outer : Chain J V K U)

theorem chained_folds : ∃ core : (outer.apply (inner.apply (.fold args))).State → S,
    Folds ((UnregisteredIndex.aggregate (outer.apply (inner.apply (.fold args)))).index K) core args.init
      (args.stepThrough (inner.append outer).filter) ∧
    ∀ s, (outer.apply (inner.apply (.fold args))).value s = outer.result (inner.result (args.result (core s))) := by
  have h := (inner.append outer).presents K args
  have hr : (inner.append outer).result = fun w => outer.result (inner.result w) :=
    funext fun w => inner.result_append outer w
  rwa [Chain.apply_append,hr] at h

theorem fed_folds : ∃ core : (inner.apply (.fold args)).State → S,
    Folds ((UnregisteredIndex.premap outer.feed (.aggregate (inner.apply (.fold args)))).index K) core args.init
      (args.stepThrough (fun x => (outer.feed x).bind inner.filter)) ∧
    ∀ s, (inner.apply (.fold args)).value s = inner.result (args.result (core s)) := by
  obtain ⟨core,hf,hv⟩ := inner.presents K args
  refine ⟨core,?_,hv⟩
  have h := PremapIndex.folds outer.feed hf
  have hs : (fun (u : Update K) a => (filterMapUpdate outer.feed u).elim a
      (fun w => args.stepThrough inner.filter w a)) = args.stepThrough (fun x => (outer.feed x).bind inner.filter) :=
    funext fun u => funext fun a => args.stepThrough_bind _ _ u a
  rwa [hs] at h

theorem composesOn_iff {c : Collection K} {calls : List (Call K)} {heard : List (Change K)} (hh : c.Hears calls heard) :
    ComposesOn (inner.apply (.fold args)) outer c calls ↔
      outer.result (inner.result (args.result (args.fed (heard.filterMap (Change.through (inner.append outer).filter))))) =
        outer.result (inner.result (args.result
          (args.fed (heard.filterMap (Change.through (fun x => (outer.feed x).bind inner.filter)))))) := by
  obtain ⟨core,hf,hv⟩ := chained_folds args inner outer
  obtain ⟨core',hf',hv'⟩ := fed_folds args inner outer
  obtain ⟨before,after,log,hj⟩ := hh
  obtain ⟨hx,s,hs,hc⟩ := Collection.play_journal hf c calls hj
  obtain ⟨hx',s',hs',hc'⟩ := Collection.play_journal hf' c calls hj
  have hl := hv s
  have hr := congrArg outer.result (hv' s')
  rw [← hc,← hc',← hl,← hr]
  constructor
  · rintro ⟨_,before',after',t,t',log',ht,ht',hval⟩
    rwa [(hs.unique ht).1,(hs'.unique ht').1]
  · intro hval
    exact ⟨hx.trans hx'.symm,before,after,s,s',log,hs,hs',hval⟩

open Classical in
-- The fold that tells one list of changes from all others.
noncomputable def probe (target : List (Change I)) (w w' : W) : FoldArgs I (List (Change I)) W :=
  { FoldArgs.journal I with result := fun heard => if heard = target then w else w' }

omit [JsValue I] in
theorem probe_result (target changes : List (Change I)) (w w' : W) :
    (changes = target → (probe target w w').result ((probe target w w').fed changes) = w) ∧
    (changes ≠ target → (probe target w w').result ((probe target w w').fed changes) = w') := by
  have hfed : (probe target w w').fed changes = changes := FoldArgs.journal_fed changes
  rw [hfed]
  exact ⟨fun h => if_pos h,fun h => if_neg h⟩

theorem aggregate_chain_composes_iff (c : Collection K) (calls : List (Call K)) : ∃ heard, c.Hears calls heard ∧
    (∀ {S : Type} (args : FoldArgs I S W), ComposesOn (inner.apply (.fold args)) outer c calls ↔
      outer.result (inner.result (args.result (args.fed (heard.filterMap (Change.through (inner.append outer).filter))))) =
        outer.result (inner.result (args.result
          (args.fed (heard.filterMap (Change.through (fun x => (outer.feed x).bind inner.filter))))))) ∧
    ((∀ {S : Type} (args : FoldArgs I S W), ComposesOn (inner.apply (.fold args)) outer c calls) ↔
      (∀ w w', outer.result (inner.result w) = outer.result (inner.result w')) ∨
        heard.filterMap (Change.through (inner.append outer).filter) =
          heard.filterMap (Change.through (fun x => (outer.feed x).bind inner.filter))) ∧
    ∀ x, JsValue.Defined x → outer.feed x ≠ none → (inner.append outer).filter x = (outer.feed x).bind inner.filter := by
  obtain ⟨heard,hh⟩ := c.exists_hears calls
  refine ⟨heard,hh,fun args => composesOn_iff args inner outer hh,?_,?_⟩
  · constructor
    · intro hall
      by_contra hno
      push Not at hno
      obtain ⟨⟨w,w',hw⟩,hne⟩ := hno
      let target := heard.filterMap (Change.through (fun x => (outer.feed x).bind inner.filter))
      have hval := (composesOn_iff (probe target w w') inner outer hh).mp (hall _)
      rw [(probe_result target _ w w').2 hne,(probe_result target target w w').1 rfl] at hval
      exact hw hval.symm
    · rintro (hconst | heq) S args
      · exact (composesOn_iff args inner outer hh).mpr (hconst _ _)
      · exact (composesOn_iff args inner outer hh).mpr (by rw [heq])
  · intro x hx hne
    obtain ⟨y,hy⟩ := Option.ne_none_iff_exists'.mp hne
    rw [hy,Option.bind_some]
    exact inner.filter_append_of_feed outer hx hy

def skipThree (x : Option JsNumber) : Option JsNumber := if x = some (.finite 3) then none else x

def meanCalls : List (Call JsNumber) := [.add (.finite 5),.add (.finite 3)]

theorem mean_of_ignored_input_is_nan : ∃ (s s' : JsNumber × JsNumber) (log : List (Update JsNumber)),
    (Procedure.play Call.exec (.registerIndex (.aggregate (arithmeticMeanIndex.premap skipThree)) :: meanCalls)
      Collection.new).2.indexes = [⟨.aggregate (arithmeticMeanIndex.premap skipThree),s,log⟩] ∧
    (Procedure.play Call.exec (.registerIndex (.premap (JsValue.onValues skipThree) (.aggregate arithmeticMeanIndex)) ::
      meanCalls) Collection.new).2.indexes =
        [⟨.premap (JsValue.onValues skipThree) (.aggregate arithmeticMeanIndex),s',log⟩] ∧
    (arithmeticMeanIndex.premap skipThree).value s = .nan ∧ arithmeticMeanIndex.value s' = .finite 5 :=
  ⟨_,_,_,rfl,rfl,by decide +kernel,by decide +kernel⟩

end Composition

end ComposableIndexes
