import ComposableIndexes.Abstract.Runs

namespace ComposableIndexes

-- `refuses`: validation throws before it returns a hook. `creates`: it makes a group that was not there.
structure Validates {In Out σ : Type} (ctx : IndexContext Out) (ix : Index In Out σ) (differ : σ → σ → Prop)
    (refuses creates : σ → Update In → Bool) : Prop where
  returns : ∀ u s, (ix.onUpdate ctx u s).Returns ↔ refuses s u = false
  quiet : ∀ u s, creates s u = false → (ix.onUpdate ctx u s).state = s
  visible : ∀ u s, creates s u = true → differ s (ix.onUpdate ctx u s).state

structure ValidatesAt {Out σ : Type} (differ : σ → σ → Prop) (refused created : Bool) (s : σ)
    (o : Outcome (Exception Out) σ (Hook Out σ)) : Prop where
  returns : o.Returns ↔ refused = false
  quiet : created = false → o.state = s
  visible : created = true → differ s o.state

namespace Validates

variable {In Out σ : Type} {ctx : IndexContext Out} {ix : Index In Out σ} {differ differ' : σ → σ → Prop}
  {refuses creates : σ → Update In → Bool}

theorem of_calls (h : ∀ u s, ValidatesAt differ (refuses s u) (creates s u) s (ix.onUpdate ctx u s)) :
    Validates ctx ix differ refuses creates :=
  ⟨fun u s => (h u s).returns,fun u s => (h u s).quiet,fun u s => (h u s).visible⟩

theorem call (h : Validates ctx ix differ refuses creates) (u : Update In) (s : σ) :
    ValidatesAt differ (refuses s u) (creates s u) s (ix.onUpdate ctx u s) := ⟨h.returns u s,h.quiet u s,h.visible u s⟩

theorem mono (h : Validates ctx ix differ refuses creates) (hd : ∀ s s', differ s s' → differ' s s') :
    Validates ctx ix differ' refuses creates :=
  ⟨h.returns,h.quiet,fun u s hc => hd _ _ (h.visible u s hc)⟩

theorem of_returned (h : ∀ u s, ∃ hook, ix.onUpdate ctx u s = .returned hook s) :
    Validates ctx ix differ (fun _ _ => false) (fun _ _ => false) := by
  refine of_calls (fun u s => ?_)
  obtain ⟨hook,hr⟩ := h u s
  rw [hr]
  exact ⟨iff_of_true ⟨_,_,rfl⟩ rfl,fun _ => rfl,by simp⟩

end Validates

namespace UniqueHashIndex

variable {K Out : Type} [DecidableEq K]

def refuses (ix : State K) : Update K → Bool
  | .add _ value => ix.has value
  | .update _ _ newValue => ix.has newValue
  | .delete _ _ => false

omit [DecidableEq K] in
theorem validatesAt_insertion {differ : State K → State K → Prop} {e : Exception Out} {hook : Hook Out (State K)}
    {ix : State K} (present : Bool) :
    ValidatesAt differ present false ix (if present then .thrown e ix else .returned hook ix) := by
  cases present with
  | false => exact ⟨iff_of_true ⟨_,_,rfl⟩ rfl,fun _ => rfl,by simp⟩
  | true => exact ⟨iff_of_false (Outcome.not_returns_thrown _ _) (by simp),fun _ => rfl,by simp⟩

theorem validates (ctx : IndexContext Out) (differ : State K → State K → Prop) :
    Validates ctx (index : Index K Out (State K)) differ refuses (fun _ _ => false) := by
  refine .of_calls (fun u ix => ?_)
  cases u with
  | add id v => exact validatesAt_insertion (ix.has v)
  | update id v w => exact validatesAt_insertion (ix.has w)
  | delete id v => exact ⟨iff_of_true ⟨_,_,rfl⟩ rfl,fun _ => rfl,by simp⟩

end UniqueHashIndex

namespace UnregisteredAggregateIndex

theorem onUpdate_returned {In Value Out : Type} (a : UnregisteredAggregateIndex In Value) (ctx : IndexContext Out)
    (u : Update In) (s : a.State) : ∃ hook, (a.index Out).onUpdate ctx u s = .returned hook s := by
  induction a with
  | fold args => exact ⟨_,rfl⟩
  | mapAggregate inner pre m ih =>
    simp only [index,PremapIndex.index]
    cases filterMapUpdate (JsValue.onValues pre) u with
    | some w => exact ih w s
    | none => exact ⟨_,rfl⟩

end UnregisteredAggregateIndex

namespace PremapIndex

variable {In InnerIn Out σ : Type} {ctx : IndexContext Out} {inner : Index InnerIn Out σ} {differ : σ → σ → Prop}
  {refuses creates : σ → Update InnerIn → Bool}

def passes (f : In → Option InnerIn) (r : σ → Update InnerIn → Bool) (s : σ) (u : Update In) : Bool :=
  (filterMapUpdate f u).elim false (r s)

theorem validates (f : In → Option InnerIn) (h : Validates ctx inner differ refuses creates) :
    Validates ctx (index f inner) differ (passes f refuses) (passes f creates) := by
  refine .of_calls (fun u s => ?_)
  simp only [index,passes]
  cases filterMapUpdate f u with
  | none => exact ⟨iff_of_true ⟨_,_,rfl⟩ rfl,fun _ => rfl,by simp⟩
  | some w => exact h.call w s

end PremapIndex

namespace GroupedIndex

variable {In Out G σ : Type} [DecidableEq G] {ctx : IndexContext Out} {inner : Index In Out σ} {differ : σ → σ → Prop}
  {rejects makes : σ → Update In → Bool} {ixs : State G σ} {g : G} {st : σ}
  {x : Procedure (Exception Out) σ (Hook Out σ)}

inductive Differ (differ : σ → σ → Prop) (ixs ixs' : State G σ) : Prop where
  | has (g : G) (h : ixs.has g ≠ ixs'.has g)
  | inner (g : G) (st st' : σ) (hg : ixs.get g = some st) (hg' : ixs'.get g = some st') (h : differ st st')

def refuses [JsKey G] (f : In → G) (create : σ) (rejects : σ → Update In → Bool) (ixs : State G σ) (u : Update In) : Bool :=
  match u with
  | .add _ value => rejects ((ixs.get (f value)).getD create) u
  | .update _ oldValue newValue =>
      strictEq (f oldValue) (f newValue) && (ixs.get (f oldValue)).elim true (fun st => rejects st u)
  | .delete _ oldValue => (ixs.get (f oldValue)).elim true (fun st => rejects st u)

def creates [JsKey G] (f : In → G) (makes : σ → Update In → Bool) (ixs : State G σ) (u : Update In) : Bool :=
  match u with
  | .add _ value => (ixs.get (f value)).elim true (fun st => makes st u)
  | .update _ oldValue newValue =>
      if strictEq (f oldValue) (f newValue) then (ixs.get (f oldValue)).elim false (fun st => makes st u)
      else !ixs.has (f newValue)
  | .delete _ oldValue => (ixs.get (f oldValue)).elim false (fun st => makes st u)

def validateIn (g : G) (x : Procedure (Exception Out) σ (Hook Out σ)) :
    Procedure (Exception Out) (State G σ) (Hook Out (State G σ)) := do
  let hook ← inGroup g x
  pure (inGroup g hook)

theorem validateIn_present (hg : ixs.get g = some st) : (validateIn g x ixs).state = ixs.set g (x st).state ∧
    ((validateIn g x ixs).Returns ↔ (x st).Returns) := by
  cases hx : x st with
  | returned hook st' =>
    rw [validateIn,Procedure.bind_returned (inGroup_returned hg hx)]
    exact ⟨rfl,iff_of_true ⟨_,_,rfl⟩ ⟨_,_,rfl⟩⟩
  | thrown e st' =>
    rw [validateIn,Procedure.bind_thrown (inGroup_thrown hg hx)]
    exact ⟨rfl,iff_of_false (Outcome.not_returns_thrown _ _) (Outcome.not_returns_thrown _ _)⟩

theorem validateIn_absent (hg : ixs.get g = none) : validateIn g x ixs = .thrown .typeError ixs := by
  refine Procedure.bind_thrown ?_
  simp [inGroup,OrderedMap.atKey,hg]

def ensured (inner : Index In Out σ) (g : G) (ixs : State G σ) : State G σ :=
  if ixs.has g then ixs else ixs.set g inner.create

theorem getOrCreateGroup_eq (inner : Index In Out σ) (g : G) (ixs : State G σ) :
    getOrCreateGroup inner g ixs = .returned () (ensured inner g ixs) := by
  unfold getOrCreateGroup ensured
  cases hg : ixs.get g <;> simp [hg]

theorem ensured_get (inner : Index In Out σ) (g : G) (ixs : State G σ) :
    (ensured inner g ixs).get g = some ((ixs.get g).getD inner.create) := by
  unfold ensured
  cases hg : ixs.get g <;> simp [hg]

theorem ensured_present (hg : ixs.has g = true) : ensured inner g ixs = ixs := if_pos hg

theorem add_eq {f : In → G} {id : Id} {v : In} : add inner f ctx id v ixs =
    validateIn (f v) (inner.onUpdate ctx (.add id v)) (ensured inner (f v) ixs) :=
  Procedure.bind_returned (getOrCreateGroup_eq inner (f v) ixs)

theorem validateIn_returns (h : Validates ctx inner differ rejects makes) (u : Update In) :
    (validateIn g (inner.onUpdate ctx u) ixs).Returns ↔ (ixs.get g).elim true (fun st => rejects st u) = false := by
  cases hg : ixs.get g with
  | some st =>
    rw [(validateIn_present hg).2]
    exact h.returns u st
  | none =>
    rw [validateIn_absent hg]
    exact iff_of_false (Outcome.not_returns_thrown _ _) (by simp)

theorem validateIn_quiet (h : Validates ctx inner differ rejects makes) {u : Update In}
    (hm : (ixs.get g).elim false (fun st => makes st u) = false) :
    (validateIn g (inner.onUpdate ctx u) ixs).state = ixs := by
  cases hg : ixs.get g with
  | some st =>
    rw [hg] at hm
    rw [(validateIn_present hg).1,h.quiet u st hm]
    exact ixs.set_of_get hg
  | none =>
    rw [validateIn_absent hg]
    rfl

theorem validateIn_visible (h : Validates ctx inner differ rejects makes) {u : Update In}
    (hm : (ixs.get g).elim false (fun st => makes st u) = true) :
    Differ differ ixs (validateIn g (inner.onUpdate ctx u) ixs).state := by
  cases hg : ixs.get g with
  | some st =>
    rw [hg] at hm
    rw [(validateIn_present hg).1]
    exact .inner g st _ hg (OrderedMap.get_set_self _ _ _) (h.visible u st hm)
  | none =>
    rw [hg] at hm
    cases hm

variable [JsKey G]

theorem update_same {f : In → G} {id : Id} {v w : In} (he : strictEq (f v) (f w) = true) :
    update inner f ctx id v w ixs = validateIn (f v) (inner.onUpdate ctx (.update id v w)) ixs := by
  rw [update,if_pos he]
  rfl

theorem update_move (ctx : IndexContext Out) (inner : Index In Out σ) (ixs : State G σ) (id : Id) {f : In → G}
    {v w : In} (he : strictEq (f v) (f w) ≠ true) :
    ∃ hook, update inner f ctx id v w ixs = .returned hook (ensured inner (f w) ixs) := by
  rw [update,if_neg he,Procedure.bind_returned (Procedure.read_apply _ _),
    Procedure.bind_returned (getOrCreateGroup_eq inner (f w) ixs)]
  exact ⟨_,rfl⟩

theorem add_validates (f : In → G) (h : Validates ctx inner differ rejects makes) (ixs : State G σ) (id : Id) (v : In) :
    ValidatesAt (Differ differ) (refuses f inner.create rejects ixs (.add id v)) (creates f makes ixs (.add id v)) ixs
      (add inner f ctx id v ixs) := by
  rw [add_eq]
  refine ⟨?_,?_,?_⟩
  · rw [validateIn_returns h,ensured_get]
    rfl
  · intro hm
    cases hg : ixs.get (f v) with
    | some st =>
      rw [ensured_present (by simp [hg])]
      exact validateIn_quiet h (by simpa [creates,hg] using hm)
    | none => simp [creates,hg] at hm
  · intro hm
    cases hg : ixs.get (f v) with
    | some st =>
      rw [ensured_present (by simp [hg])]
      exact validateIn_visible h (by simpa [creates,hg] using hm)
    | none =>
      rw [(validateIn_present (ensured_get inner (f v) ixs)).1]
      exact .has (f v) (by simp [hg])

theorem update_validates_same {f : In → G} (h : Validates ctx inner differ rejects makes) (ixs : State G σ) (id : Id)
    {v w : In} (he : strictEq (f v) (f w) = true) :
    ValidatesAt (Differ differ) (refuses f inner.create rejects ixs (.update id v w)) (creates f makes ixs (.update id v w))
      ixs (update inner f ctx id v w ixs) := by
  rw [update_same he]
  refine ⟨?_,?_,?_⟩
  · rw [validateIn_returns h,refuses,he,Bool.true_and]
  · intro hm
    rw [creates,if_pos he] at hm
    exact validateIn_quiet h hm
  · intro hm
    rw [creates,if_pos he] at hm
    exact validateIn_visible h hm

theorem update_validates_move {f : In → G} (ctx : IndexContext Out) (inner : Index In Out σ) (ixs : State G σ) (id : Id)
    {v w : In} (he : strictEq (f v) (f w) ≠ true) :
    ValidatesAt (Differ differ) (refuses f inner.create rejects ixs (.update id v w)) (creates f makes ixs (.update id v w))
      ixs (update inner f ctx id v w ixs) := by
  obtain ⟨hook,hr⟩ := update_move ctx inner ixs id he
  rw [hr]
  refine ⟨iff_of_true ⟨_,_,rfl⟩ (by simp [refuses,he]),?_,?_⟩
  · intro hm
    rw [creates,if_neg he,Bool.not_eq_false'] at hm
    rw [ensured_present hm]
    rfl
  · intro hm
    rw [creates,if_neg he,Bool.not_eq_true'] at hm
    refine .has (f w) ?_
    rw [Outcome.state,OrderedMap.has_eq (ensured inner (f w) ixs),ensured_get,hm]
    simp

theorem validates (f : In → G) (h : Validates ctx inner differ rejects makes) :
    Validates ctx (index f inner) (Differ differ) (refuses f inner.create rejects) (creates f makes) := by
  refine .of_calls (fun u ixs => ?_)
  cases u with
  | add id v => exact add_validates f h ixs id v
  | update id v w =>
    by_cases he : strictEq (f v) (f w) = true
    · exact update_validates_same h ixs id he
    · exact update_validates_move ctx inner ixs id he
  | delete id v => exact ⟨validateIn_returns h _,validateIn_quiet h,validateIn_visible h⟩

end GroupedIndex

namespace ZipIndex

variable {In Out σ τ : Type} {ctx : IndexContext Out} {head : Index In Out σ} {tail : Index In Out τ}
  {differ : σ → σ → Prop} {differ' : τ → τ → Prop} {rejects makes : σ → Update In → Bool}
  {rejects' makes' : τ → Update In → Bool}

inductive Differ (differ : σ → σ → Prop) (differ' : τ → τ → Prop) (s s' : σ × τ) : Prop where
  | head (h : differ s.1 s'.1)
  | tail (h : differ' s.2 s'.2)

def refuses (rejects : σ → Update In → Bool) (rejects' : τ → Update In → Bool) (s : σ × τ) (u : Update In) : Bool :=
  rejects s.1 u || rejects' s.2 u

-- The tail is not asked when the head throws.
def creates (rejects makes : σ → Update In → Bool) (makes' : τ → Update In → Bool) (s : σ × τ) (u : Update In) : Bool :=
  makes s.1 u || (!rejects s.1 u && makes' s.2 u)

theorem cons_thrown {u : Update In} {s s' : σ} {e : Exception Out} (h : head.onUpdate ctx u s = .thrown e s') (t : τ) :
    (cons head tail).onUpdate ctx u (s,t) = .thrown e (s',t) :=
  Procedure.bind_thrown (Procedure.first_thrown h t)

theorem cons_returned {u : Update In} {s s' : σ} {hook : Hook Out σ} (h : head.onUpdate ctx u s = .returned hook s')
    (t : τ) : ((cons head tail).onUpdate ctx u (s,t)).state = (s',(tail.onUpdate ctx u t).state) ∧
      (((cons head tail).onUpdate ctx u (s,t)).Returns ↔ (tail.onUpdate ctx u t).Returns) := by
  have hf : Procedure.first (head.onUpdate ctx u) (s,t) = .returned hook (s',t) := Procedure.first_returned h t
  have hc : (cons head tail).onUpdate ctx u (s,t) = _ := Procedure.bind_returned hf
  rw [hc]
  cases ht : tail.onUpdate ctx u t with
  | returned hook' t' =>
    rw [Procedure.bind_returned (Procedure.second_returned ht s')]
    exact ⟨rfl,iff_of_true ⟨_,_,rfl⟩ ⟨_,_,rfl⟩⟩
  | thrown e t' =>
    rw [Procedure.bind_thrown (Procedure.second_thrown ht s')]
    exact ⟨rfl,iff_of_false (Outcome.not_returns_thrown _ _) (Outcome.not_returns_thrown _ _)⟩

theorem validates_cons (hh : Validates ctx head differ rejects makes) (ht : Validates ctx tail differ' rejects' makes') :
    Validates ctx (cons head tail) (Differ differ differ') (refuses rejects rejects') (creates rejects makes makes') := by
  refine .of_calls ?_
  rintro u ⟨s,t⟩
  have hs := hh.call u s
  have htl := ht.call u t
  cases ho : head.onUpdate ctx u s with
  | thrown e s' =>
    rw [ho] at hs
    have hr : rejects s u = true := by
      rw [← Bool.not_eq_false,← hs.returns]
      exact Outcome.not_returns_thrown _ _
    rw [cons_thrown ho]
    simp only [refuses,creates,hr,Bool.true_or,Bool.not_true,Bool.false_and,Bool.or_false]
    refine ⟨iff_of_false (Outcome.not_returns_thrown _ _) (by simp),?_,?_⟩
    · intro hm
      exact congrArg (·,t) (hs.quiet hm)
    · intro hm
      exact .head (hs.visible hm)
  | returned hook s' =>
    rw [ho] at hs
    have hr : rejects s u = false := hs.returns.mp ⟨_,_,rfl⟩
    obtain ⟨hstate,hreturns⟩ := cons_returned ho t
    simp only [refuses,creates,hr,Bool.false_or,Bool.not_false,Bool.true_and]
    refine ⟨hreturns.trans htl.returns,?_,?_⟩
    · intro hm
      rw [Bool.or_eq_false_iff] at hm
      have hq : s' = s := hs.quiet hm.1
      rw [hstate,htl.quiet hm.2,hq]
    · intro hm
      rw [Bool.or_eq_true] at hm
      rw [hstate]
      rcases hm with hm | hm
      · exact .head (hs.visible hm)
      · exact .tail (htl.visible hm)

end ZipIndex

namespace UnregisteredIndex

variable {Out : Type}

def refuses (Out : Type) : {In : Type} → (e : UnregisteredIndex In) → e.State → Update In → Bool
  | _, @hashIndex _ _ => fun _ _ => false
  | _, @btreeIndex _ _ _ _ => fun _ _ => false
  | _, @uniqueHashIndex _ _ => UniqueHashIndex.refuses
  | _, .aggregate _ => fun _ _ => false
  | _, .premap f inner => PremapIndex.passes f (refuses Out inner)
  | _, @group _ _ _ _ f inner => GroupedIndex.refuses f (inner.index Out).create (refuses Out inner)
  | _, .zipNil => fun _ _ => false
  | _, .zipCons head tail => ZipIndex.refuses (refuses Out head) (refuses Out tail)

def creates (Out : Type) : {In : Type} → (e : UnregisteredIndex In) → e.State → Update In → Bool
  | _, @hashIndex _ _ => fun _ _ => false
  | _, @btreeIndex _ _ _ _ => fun _ _ => false
  | _, @uniqueHashIndex _ _ => fun _ _ => false
  | _, .aggregate _ => fun _ _ => false
  | _, .premap f inner => PremapIndex.passes f (creates Out inner)
  | _, @group _ _ _ _ f inner => GroupedIndex.creates f (creates Out inner)
  | _, .zipNil => fun _ _ => false
  | _, .zipCons head tail => ZipIndex.creates (refuses Out head) (creates Out head) (creates Out tail)

def Differ (ctx : IndexContext Out) {In : Type} (e : UnregisteredIndex In) (s s' : e.State) : Prop :=
  ∃ (R : Type) (q : Query Out e R), q.run ctx s ≠ q.run ctx s'

variable {In : Type} {ctx : IndexContext Out}

theorem map_some_ne {ε α : Type} {x y : Except ε α} (h : x ≠ y) : x.map some ≠ y.map some := by
  intro he
  apply h
  cases x <;> cases y <;> cases he <;> rfl

theorem differ_group {G : Type} [DecidableEq G] [JsKey G] {f : In → G} {inner : UnregisteredIndex In}
    {s s' : GroupedIndex.State G inner.State} (h : GroupedIndex.Differ (inner.Differ ctx) s s') :
    (UnregisteredIndex.group f inner).Differ ctx s s' := by
  cases h with
  | has g hg => exact ⟨Bool,.groupHas g,fun he => hg (Except.ok.inj he)⟩
  | inner g st st' hg hg' hd =>
    obtain ⟨R,q,hq⟩ := hd
    refine ⟨Option R,.groupGet g q,?_⟩
    simp only [Query.run,hg,hg']
    exact map_some_ne hq

theorem differ_zip {head tail : UnregisteredIndex In} {s s' : head.State × tail.State}
    (h : ZipIndex.Differ (head.Differ ctx) (tail.Differ ctx) s s') : (UnregisteredIndex.zipCons head tail).Differ ctx s s' := by
  cases h with
  | head hd =>
    obtain ⟨R,q,hq⟩ := hd
    exact ⟨R,.zipHead q,hq⟩
  | tail hd =>
    obtain ⟨R,q,hq⟩ := hd
    exact ⟨R,.zipTail q,hq⟩

theorem validates (ctx : IndexContext Out) (e : UnregisteredIndex In) :
    Validates ctx (e.index Out) (e.Differ ctx) (e.refuses Out) (e.creates Out) := by
  induction e with
  | hashIndex => exact .of_returned (fun u s => ⟨_,rfl⟩)
  | btreeIndex lib => exact .of_returned (fun u s => ⟨_,rfl⟩)
  | uniqueHashIndex => exact UniqueHashIndex.validates ctx _
  | aggregate a => exact .of_returned (a.onUpdate_returned ctx)
  | premap f inner ih =>
    refine (PremapIndex.validates f ih).mono ?_
    rintro s s' ⟨R,q,hq⟩
    exact ⟨R,.premapGet q,hq⟩
  | group f inner ih => exact (GroupedIndex.validates f ih).mono (fun _ _ => differ_group)
  | zipNil => exact .of_returned (fun u s => ⟨_,rfl⟩)
  | zipCons head tail ihh iht => exact (ZipIndex.validates_cons ihh iht).mono (fun _ _ => differ_zip)

theorem validation_invisible_iff (e : UnregisteredIndex In) (ctx : IndexContext Out) (u : Update In) (s : e.State) :
    (∀ {R : Type} (q : Query Out e R), q.run ctx ((e.index Out).onUpdate ctx u s).state = q.run ctx s) ↔
      e.creates Out s u = false := by
  have hv := e.validates ctx
  constructor
  · intro hsame
    by_contra hc
    obtain ⟨R,q,hq⟩ := hv.visible u s (by simpa using hc)
    exact hq (hsame q).symm
  · intro hc R q
    rw [hv.quiet u s hc]

end UnregisteredIndex

namespace Collection

def emptyTeams : Collection ℕ := (Procedure.play Call.exec [.registerIndex (.group (fun n => n % 2) .hashIndex)] new).2

theorem validation_creates_group : Reached Call.exec Call.Proper new emptyTeams ∧
    ∃ ix ∈ emptyTeams.indexes, ∃ q : Query ℕ ix.expr Bool,
      q.run emptyTeams.context ((ix.expr.index ℕ).onUpdate emptyTeams.context (.add emptyTeams.nextId 5) ix.state).state ≠
        q.run emptyTeams.context ix.state :=
  ⟨Procedure.reached_play [Call.registerIndex (.group (fun n => n % 2) .hashIndex)] .start (by decide),
    _,List.mem_singleton.mpr rfl,.groupHas 1,by intro h; cases h⟩

end Collection

end ComposableIndexes
