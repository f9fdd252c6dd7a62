import ComposableIndexes.Abstract.Refinement

namespace ComposableIndexes

namespace PremapIndex

variable {In InnerIn Out σ : Type} {P : Id → Prop} {holds : Contents InnerIn → σ → Prop}
  {rejects defers : Contents InnerIn → Update InnerIn → Prop} {inner : Index InnerIn Out σ}

def Through (f : In → Option InnerIn) (r : Contents InnerIn → Update InnerIn → Prop) (S : Contents In)
    (u : Update In) : Prop :=
  ∃ w, filterMapUpdate f u = some w ∧ r (S.filterMap f) w

def Holds (f : In → Option InnerIn) (holds : Contents InnerIn → σ → Prop) (S : Contents In) (s : σ) : Prop :=
  holds (S.filterMap f) s

theorem through_of_none {f : In → Option InnerIn} {r : Contents InnerIn → Update InnerIn → Prop}
    {S : Contents In} {u : Update In} (h : filterMapUpdate f u = none) : ¬Through f r S u := by
  rintro ⟨w,hw,_⟩
  rw [h] at hw
  cases hw

theorem through_iff {f : In → Option InnerIn} {r : Contents InnerIn → Update InnerIn → Prop}
    {S : Contents In} {u : Update In} {w : Update InnerIn} (h : filterMapUpdate f u = some w) :
    Through f r S u ↔ r (S.filterMap f) w := by
  constructor
  · rintro ⟨w',hw,hr⟩
    rw [h] at hw
    cases hw
    exact hr
  · exact fun hr => ⟨w,h,hr⟩

theorem filterMapUpdate_same {f : In → Option InnerIn} (id : Id) (v : In) :
    filterMapUpdate f (.update id v v) = (f v).map (fun b => .update id b b) := by
  cases hv : f v <;> simp [filterMapUpdate,hv]

theorem verdict_through {f : In → Option InnerIn} {x : Exception Out} {S : Contents In} {u : Update In}
    {w : Update InnerIn} {o : Outcome (Exception Out) σ (Hook Out σ)} (hu : u.ValidAt S)
    (hw : filterMapUpdate f u = some w) (h : Verdict holds rejects defers x (S.filterMap f) w o) :
    Verdict (Holds f holds) (Through f rejects) (Through f defers) x S u o := by
  cases h with
  | rejected hr hs => exact .rejected ((through_iff hw).mpr hr) hs
  | committed hr hd hs hh hs' =>
    refine .committed (fun h => hr ((through_iff hw).mp h)) (fun h => hd ((through_iff hw).mp h)) hs hh ?_
    rwa [Holds,← Update.apply_filterMap hu hw]
  | failed hr hd hs hh => exact .failed (fun h => hr ((through_iff hw).mp h)) ((through_iff hw).mpr hd) hs hh

theorem refines (f : In → Option InnerIn) (h : Refines holds rejects defers P inner) :
    Refines (Holds f holds) (Through f rejects) (Through f defers) P (index f inner) where
  create := h.create
  onUpdate ctx S s u hs hu hP := by
    cases hw : filterMapUpdate f u with
    | none =>
      simp only [index,hw]
      refine .committed (through_of_none hw) (through_of_none hw) hs rfl ?_
      rwa [Holds,Update.apply_filterMap_of_none hu hw]
    | some w =>
      simp only [index,hw]
      have hid := filterMapUpdate_id hw
      rw [← hid] at hP ⊢
      exact verdict_through hu hw (h.onUpdate ctx _ s w hs (Update.valid_filterMap hu hw) hP)
  rejects_delete S id v := by
    rintro ⟨w,hw,hr⟩
    simp only [filterMapUpdate] at hw
    split at hw <;> cases hw
    exact h.rejects_delete _ _ _ hr
  defers_update S u := by
    rintro ⟨w,hw,hd⟩
    obtain ⟨id,a,b,rfl⟩ := h.defers_update _ _ hd
    cases u <;> simp only [filterMapUpdate] at hw <;> split at hw <;> cases hw
    exact ⟨_,_,_,rfl⟩
  accepts_stored S R s id v hs hR hid hv := by
    rintro ⟨w,hw,hr⟩
    simp only [filterMapUpdate] at hw
    split at hw <;> cases hw
    refine h.accepts_stored _ _ s id _ hs (hR.filterMap f) ?_ ?_ hr
    · simp [hid]
    · simpa [hv]
  keeps_same S s id v hs hv := by
    rintro ⟨w,hw,hd⟩
    rw [filterMapUpdate_same,Option.map_eq_some_iff] at hw
    obtain ⟨b,hb,rfl⟩ := hw
    exact h.keeps_same _ s id b hs (by simpa [hv]) hd
  quiet ctx S s id v hs hv := by
    have hw := filterMapUpdate_same (f := f) id v
    cases hb : f v with
    | none =>
      rw [hb] at hw
      simp only [index,hw]
      rfl
    | some b =>
      rw [hb] at hw
      simp only [index,hw]
      exact h.quiet ctx _ s id b hs (by simpa [hv])

end PremapIndex

namespace GroupedIndex

variable {In Out G σ : Type} [DecidableEq G] {P : Id → Prop} {holds : Contents In → σ → Prop}
  {rejects defers : Contents In → Update In → Prop} {inner : Index In Out σ} {f : In → G}
  {S : Contents In} {ixs : State G σ} {g : G} {st : σ}

def part (f : In → G) (g : G) (v : In) : Option In := if f v = g then some v else none

theorem filterMap_part (S : Contents In) (f : In → G) (g : G) (i : BitVec 64) (v : In) :
    S.filterMap (part f g) i = some v ↔ S i = some v ∧ f v = g := by
  rw [PartialMap.filterMap_apply,Option.bind_eq_some_iff]
  constructor
  · rintro ⟨w,hw,hg⟩
    rw [part] at hg
    split_ifs at hg with hgw
    cases hg
    exact ⟨hw,hgw⟩
  · rintro ⟨hv,hg⟩
    exact ⟨v,hv,if_pos hg⟩

structure Holds (f : In → G) (holds : Contents In → σ → Prop) (S : Contents In) (ixs : State G σ) : Prop where
  inner : ∀ g st, ixs.get g = some st → holds (S.filterMap (part f g)) st
  present : ∀ i v, S i = some v → (ixs.get (f v)).isSome = true

theorem Holds.exists_group (h : Holds f holds S ixs) {i : BitVec 64} {v : In} (hv : S i = some v) :
    ∃ st, ixs.get (f v) = some st := Option.isSome_iff_exists.mp (h.present i v hv)

def Rejects [JsKey G] (f : In → G) (rejects : Contents In → Update In → Prop) (S : Contents In) : Update In → Prop
  | .add id v => rejects (S.filterMap (part f (f v))) (.add id v)
  | .update id v w => strictEq (f v) (f w) = true ∧ rejects (S.filterMap (part f (f v))) (.update id v w)
  | .delete _ _ => False

def Defers [JsKey G] (f : In → G) (rejects defers : Contents In → Update In → Prop) (S : Contents In) :
    Update In → Prop
  | .update id v w =>
      if strictEq (f v) (f w) then defers (S.filterMap (part f (f v))) (.update id v w)
      else rejects ((S.erase id.bits).filterMap (part f (f w))) (.add id w)
  | _ => False

structure Local (f : In → G) (g : G) (u : Update In) : Prop where
  same : filterMapUpdate (part f g) u = some u
  other : ∀ g', g' ≠ g → filterMapUpdate (part f g') u = none

theorem local_add (f : In → G) (id : Id) (v : In) : Local f (f v) (.add id v) :=
  ⟨by simp [filterMapUpdate,part],fun g' hg => by simp [filterMapUpdate,part,hg.symm]⟩

theorem local_delete (f : In → G) (id : Id) (v : In) : Local f (f v) (.delete id v) :=
  ⟨by simp [filterMapUpdate,part],fun g' hg => by simp [filterMapUpdate,part,hg.symm]⟩

theorem local_update (f : In → G) (id : Id) {v w : In} (h : f v = f w) : Local f (f v) (.update id v w) :=
  ⟨by simp [filterMapUpdate,part,h],fun g' hg => by simp [filterMapUpdate,part,← h,hg.symm]⟩

theorem local_group {u : Update In} (hl : Local f g u) {v : In} (hv : u.apply S u.id.bits = some v) :
    f v = g := by
  have hs := hl.same
  cases u <;> simp only [filterMapUpdate] at hs <;> split at hs <;> cases hs <;>
    simp_all [part,Update.apply,Update.id]

theorem holds_set (h : Holds f holds S ixs) (hst : holds (S.filterMap (part f g)) st) :
    Holds f holds S (ixs.set g st) := by
  refine ⟨?_,?_⟩
  · intro g' st' hg
    rw [OrderedMap.get_set] at hg
    split_ifs at hg with hgg
    · cases hg
      rwa [hgg]
    · exact h.inner g' st' hg
  · intro i v hv
    rw [OrderedMap.get_set]
    split_ifs
    · rfl
    · exact h.present i v hv

theorem holds_apply (h : Holds f holds S ixs) {u : Update In} (hl : Local f g u) (hu : u.ValidAt S)
    (hst : holds (u.apply (S.filterMap (part f g))) st) : Holds f holds (u.apply S) (ixs.set g st) := by
  refine ⟨?_,?_⟩
  · intro g' st' hg
    rw [OrderedMap.get_set] at hg
    split_ifs at hg with hgg
    · cases hg
      rwa [hgg,← Update.apply_filterMap hu hl.same]
    · rw [Update.apply_filterMap_of_none hu (hl.other g' hgg)]
      exact h.inner g' st' hg
  · intro i v hv
    rw [OrderedMap.get_set]
    by_cases hi : i = u.id.bits
    · subst hi
      simp [local_group hl hv]
    · rw [u.apply_of_ne S hi] at hv
      split_ifs
      · rfl
      · exact h.present i v hv

theorem part_empty (h : Holds f holds S ixs) (hg : ixs.get g = none) :
    S.filterMap (part f g) = PartialMap.empty := by
  funext i
  ext v
  refine iff_of_false ?_ (by simp)
  rw [filterMap_part]
  rintro ⟨hv,rfl⟩
  obtain ⟨st,hst⟩ := h.exists_group hv
  rw [hg] at hst
  cases hst

theorem getOrCreateGroup_spec (hin : Refines holds rejects defers P inner) (h : Holds f holds S ixs) (g : G) :
    ∃ ixs', getOrCreateGroup inner g ixs = .returned () ixs' ∧ Holds f holds S ixs' ∧
      (∃ st, ixs'.get g = some st) ∧ (∀ g', (ixs.get g').isSome = true → ixs'.get g' = ixs.get g') := by
  unfold getOrCreateGroup
  cases hg : ixs.get g with
  | some st => exact ⟨ixs,rfl,h,⟨st,hg⟩,fun _ _ => rfl⟩
  | none =>
    refine ⟨ixs.set g inner.create,rfl,holds_set h ?_,⟨_,OrderedMap.get_set_self _ _ _⟩,?_⟩
    · rw [part_empty h hg]
      exact hin.create
    · intro g' hg'
      rw [OrderedMap.get_set,if_neg]
      rintro rfl
      rw [hg] at hg'
      cases hg'

theorem inGroup_returned {α : Type} {x : Procedure (Exception Out) σ α} {a : α} {st' : σ}
    (hg : ixs.get g = some st) (hx : x st = .returned a st') :
    inGroup g x ixs = .returned a (ixs.set g st') := by
  simp [inGroup,OrderedMap.atKey,hg,hx,Outcome.mapState]

theorem inGroup_thrown {α : Type} {x : Procedure (Exception Out) σ α} {e : Exception Out} {st' : σ}
    (hg : ixs.get g = some st) (hx : x st = .thrown e st') :
    (inGroup g x ixs : Outcome (Exception Out) (State G σ) α) = .thrown e (ixs.set g st') := by
  simp [inGroup,OrderedMap.atKey,hg,hx,Outcome.mapState]

theorem of_inGroup {α : Type} {x : Procedure (Exception Out) σ α} {ixs' : State G σ} {a : α}
    (h : inGroup g x ixs = .returned a ixs') :
    ∃ st st', ixs.get g = some st ∧ x st = .returned a st' ∧ ixs' = ixs.set g st' := by
  cases hg : ixs.get g with
  | none => simp [inGroup,OrderedMap.atKey,hg] at h
  | some st =>
    cases hx : x st with
    | thrown e st' =>
      rw [inGroup_thrown hg hx] at h
      cases h
    | returned b st' =>
      rw [inGroup_returned hg hx] at h
      cases h
      exact ⟨st,st',rfl,hx,rfl⟩

theorem inGroup_deliver (hin : Refines holds rejects defers P inner) (ctx : IndexContext Out)
    (h : Holds f holds S ixs) {u : Update In} (hl : Local f g u) (hu : u.ValidAt S) (hP : P u.id)
    (hg : ixs.get g = some st) (hr : ¬rejects (S.filterMap (part f g)) u)
    (hd : ¬defers (S.filterMap (part f g)) u) :
    ∃ st', inGroup g (inner.deliver ctx u) ixs = .returned () (ixs.set g st') ∧
      Holds f holds (u.apply S) (ixs.set g st') := by
  obtain ⟨st',hx,hs'⟩ := hin.deliver_returned ctx (h.inner g st hg) (Update.valid_filterMap hu hl.same) hP hr hd
  exact ⟨st',inGroup_returned hg hx,holds_apply h hl hu hs'⟩

theorem verdict_inGroup (hin : Refines holds rejects defers P inner) {ctx : IndexContext Out}
    {rejects' defers' : Contents In → Update In → Prop} (h : Holds f holds S ixs) {u : Update In}
    (hl : Local f g u) (hu : u.ValidAt S) (hP : P u.id) (hg : ixs.get g = some st)
    (hr : rejects' S u ↔ rejects (S.filterMap (part f g)) u)
    (hd : defers' S u ↔ defers (S.filterMap (part f g)) u) :
    Verdict (Holds f holds) rejects' defers' (conflictException ctx u.id) S u
      ((do
        let hook ← inGroup g (inner.onUpdate ctx u)
        pure (inGroup g hook) : Procedure (Exception Out) (State G σ) (Hook Out (State G σ))) ixs) := by
  have hv := hin.onUpdate ctx _ st u (h.inner g st hg) (Update.valid_filterMap hu hl.same) hP
  generalize ho : inner.onUpdate ctx u st = o at hv
  cases hv with
  | rejected hr' hs =>
    rw [Procedure.bind_thrown (inGroup_thrown hg ho)]
    exact .rejected (hr.mpr hr') (holds_set h hs)
  | @committed hook s s' hr' hd' hs hh hs' =>
    rw [Procedure.bind_returned (inGroup_returned hg ho),Procedure.pure_apply]
    refine .committed (fun hc => hr' (hr.mp hc)) (fun hc => hd' (hd.mp hc)) (holds_set h hs)
      (inGroup_returned (OrderedMap.get_set_self _ _ _) hh) ?_
    exact holds_apply (holds_set h hs) hl hu hs'
  | @failed hook s s' hr' hd' hs hh =>
    rw [Procedure.bind_returned (inGroup_returned hg ho),Procedure.pure_apply]
    exact .failed (fun hc => hr' (hr.mp hc)) (hd.mpr hd') (holds_set h hs)
      (inGroup_thrown (OrderedMap.get_set_self _ _ _) hh)

variable [JsKey G]

-- The move is the deletion from the old group and then the addition to the new one, which are the
-- same group when the key is NaN.
theorem verdict_move (hin : Refines holds rejects defers P inner) {ctx : IndexContext Out}
    (h : Holds f holds S ixs) {id : Id} {v w : In} (hv : S id.bits = some v) (hP : P id)
    (hne : strictEq (f v) (f w) ≠ true) :
    Verdict (Holds f holds) (Rejects f rejects) (Defers f rejects defers) (conflictException ctx id) S
      (.update id v w) (update inner f ctx id v w ixs) := by
  obtain ⟨ixs',hget,h',⟨st₂,hst₂⟩,hkeep⟩ := getOrCreateGroup_spec hin h (f w)
  obtain ⟨st,hst⟩ := h.exists_group hv
  have hst' : ixs'.get (f v) = some st := by
    rw [hkeep (f v) (h.present id.bits v hv),hst]
  obtain ⟨st₁,hdel,hholds⟩ := inGroup_deliver hin ctx h' (local_delete f id v) hv hP hst'
    (hin.rejects_delete _ _ _) (hin.not_defers_delete _ _ _)
  have hnew : ∃ st₃, (ixs'.set (f v) st₁).get (f w) = some st₃ := by
    rw [OrderedMap.get_set]
    split_ifs
    · exact ⟨st₁,rfl⟩
    · exact ⟨st₂,hst₂⟩
  obtain ⟨st₃,hst₃⟩ := hnew
  have hfree : (S.erase id.bits) id.bits = none := S.erase_self id.bits
  have hrej : ¬Rejects f rejects S (.update id v w) := fun hc => hne hc.1
  have hhas : ixs.has (f v) = true := by simp [hst]
  rw [update,if_neg hne,Procedure.bind_returned (Procedure.read_apply _ _),Procedure.bind_returned hget,
    Procedure.pure_apply,hhas,if_pos rfl]
  by_cases hr : rejects ((S.erase id.bits).filterMap (part f (f w))) (.add id w)
  · obtain ⟨st₄,hadd⟩ := hin.deliver_thrown ctx (hholds.inner _ _ hst₃)
      (Update.valid_filterMap (u := .add id w) hfree (local_add f id w).same) hP (.inl hr)
    refine .failed hrej ?_ h' ((Hook.andThen_returned hdel).trans (inGroup_thrown hst₃ hadd))
    rw [Defers,if_neg hne]
    exact hr
  · obtain ⟨st₄,hadd,hholds'⟩ := inGroup_deliver hin ctx hholds (local_add f id w) hfree hP hst₃ hr
      (hin.not_defers_add _ _ _)
    refine .committed hrej ?_ h' ((Hook.andThen_returned hdel).trans hadd) ?_
    · rw [Defers,if_neg hne]
      exact hr
    · have he : (Update.add id w).apply (S.erase id.bits) = (Update.update id v w).apply S :=
        S.erase_set id.bits w
      rwa [← he]

theorem quiet_inGroup (hin : Refines holds rejects defers P inner) {ctx : IndexContext Out}
    (h : Holds f holds S ixs) {id : Id} {v : In} (hv : S id.bits = some v) :
    (update inner f ctx id v v ixs).state = ixs := by
  obtain ⟨st,hst⟩ := h.exists_group hv
  have hq := hin.quiet ctx _ st id v (h.inner _ st hst) ((filterMap_part S f (f v) id.bits v).mpr ⟨hv,rfl⟩)
  unfold update
  split_ifs
  · cases ho : inner.onUpdate ctx (.update id v v) st with
    | thrown e st' =>
      rw [ho] at hq
      cases hq
      rw [Procedure.bind_thrown (inGroup_thrown hst ho)]
      exact ixs.set_of_get hst
    | returned hook st' =>
      rw [ho] at hq
      cases hq
      rw [Procedure.bind_returned (inGroup_returned hst ho)]
      exact ixs.set_of_get hst
  · have hget : getOrCreateGroup inner (f v) ixs = .returned () ixs := by
      simp [getOrCreateGroup,hst]
    rw [Procedure.bind_returned (Procedure.read_apply _ _),Procedure.bind_returned hget]
    rfl

theorem refines (f : In → G) (hin : Refines holds rejects defers P inner) :
    Refines (Holds f holds) (Rejects f rejects) (Defers f rejects defers) P (index f inner) where
  create := ⟨by simp [index],by simp⟩
  onUpdate ctx S ixs u h hu hP := by
    cases u with
    | add id v =>
      obtain ⟨ixs',hget,h',⟨st,hst⟩,_⟩ := getOrCreateGroup_spec hin h (f v)
      simp only [index,add]
      rw [Procedure.bind_returned hget]
      exact verdict_inGroup hin h' (local_add f id v) hu hP hst Iff.rfl
        ⟨False.elim,hin.not_defers_add _ _ _⟩
    | update id v w =>
      simp only [index]
      by_cases he : strictEq (f v) (f w) = true
      · obtain ⟨st,hst⟩ := h.exists_group hu
        rw [update,if_pos he]
        refine verdict_inGroup hin h (local_update f id (eq_of_strictEq he)) hu hP hst ?_ ?_
        · simp [Rejects,he]
        · simp [Defers,he]
      · exact verdict_move hin h hu hP he
    | delete id v =>
      obtain ⟨st,hst⟩ := h.exists_group hu
      exact verdict_inGroup hin h (local_delete f id v) hu hP hst
        ⟨False.elim,hin.rejects_delete _ _ _⟩ ⟨False.elim,hin.not_defers_delete _ _ _⟩
  rejects_delete _ _ _ := not_false
  defers_update S u hd := by
    cases u with
    | update id v w => exact ⟨id,v,w,rfl⟩
    | add id v => exact hd.elim
    | delete id v => exact hd.elim
  accepts_stored S R ixs id v h hR hid hv := by
    obtain ⟨st,hst⟩ := h.exists_group hv
    have hpart := (filterMap_part S f (f v) id.bits v).mpr ⟨hv,rfl⟩
    exact hin.accepts_stored _ _ st id v (h.inner _ st hst) (hR.filterMap _) (by simp [hid]) hpart
  keeps_same S ixs id v h hv := by
    obtain ⟨st,hst⟩ := h.exists_group hv
    have hpart := (filterMap_part S f (f v) id.bits v).mpr ⟨hv,rfl⟩
    rw [Defers]
    split_ifs
    · exact hin.keeps_same _ st id v (h.inner _ st hst) hpart
    · exact hin.accepts_stored _ _ st id v (h.inner _ st hst) ((S.sub_erase id.bits).filterMap _)
        (by simp) hpart
  quiet ctx S ixs id v h hv := quiet_inGroup hin h hv

end GroupedIndex

namespace ZipIndex

variable {In Out σ τ : Type} {P : Id → Prop} {holds : Contents In → σ → Prop} {holds' : Contents In → τ → Prop}
  {rejects defers rejects' defers' : Contents In → Update In → Prop} {head : Index In Out σ}
  {tail : Index In Out τ}

def Either (r r' : Contents In → Update In → Prop) (S : Contents In) (u : Update In) : Prop := r S u ∨ r' S u

def Holds (holds : Contents In → σ → Prop) (holds' : Contents In → τ → Prop) (S : Contents In) (s : σ × τ) : Prop :=
  holds S s.1 ∧ holds' S s.2

section OnUpdate

variable {ctx : IndexContext Out} {u : Update In} {a a' : σ} {b b' : τ} {hook : Hook Out σ} {hook' : Hook Out τ}
  {e : Exception Out}

theorem onUpdate_head_thrown (ho : head.onUpdate ctx u a = .thrown e a') (b : τ) :
    (cons head tail).onUpdate ctx u (a,b) = .thrown e (a',b) :=
  Procedure.bind_thrown (Procedure.first_thrown ho b)

theorem onUpdate_tail_thrown (ho : head.onUpdate ctx u a = .returned hook a')
    (ho' : tail.onUpdate ctx u b = .thrown e b') : (cons head tail).onUpdate ctx u (a,b) = .thrown e (a',b') :=
  (Procedure.bind_returned (Procedure.first_returned ho b)).trans (Procedure.bind_thrown (Procedure.second_thrown ho' a'))

theorem onUpdate_returned (ho : head.onUpdate ctx u a = .returned hook a')
    (ho' : tail.onUpdate ctx u b = .returned hook' b') : (cons head tail).onUpdate ctx u (a,b) =
      .returned (Hook.andThen (Procedure.first hook) (Procedure.second hook')) (a',b') :=
  (Procedure.bind_returned (Procedure.first_returned ho b)).trans (Procedure.bind_returned (Procedure.second_returned ho' a'))

theorem hook_head_thrown {x : Exception Out} (hh : hook a = .thrown x a') (hook' : Hook Out τ) (b : τ) :
    Hook.andThen (Procedure.first hook) (Procedure.second hook') (a,b) = .thrown x (a',b) :=
  Hook.andThen_thrown (Procedure.first_thrown hh b)

theorem hook_tail (hh : hook a = .returned () a') (hook' : Hook Out τ) (b : τ) :
    Hook.andThen (Procedure.first hook) (Procedure.second hook') (a,b) = Procedure.second hook' (a',b) :=
  Hook.andThen_returned (Procedure.first_returned hh b)

end OnUpdate

theorem verdict_cons (h : Refines holds rejects defers P head) (h' : Refines holds' rejects' defers' P tail)
    (ctx : IndexContext Out) {S : Contents In} {a : σ} {b : τ} {u : Update In} (ha : holds S a) (hb : holds' S b)
    (hu : u.ValidAt S) (hP : P u.id) : Verdict (Holds holds holds') (Either rejects rejects') (Either defers defers')
      (conflictException ctx u.id) S u ((cons head tail).onUpdate ctx u (a,b)) := by
  have hv := h.onUpdate ctx S a u ha hu hP
  have hv' := h'.onUpdate ctx S b u hb hu hP
  generalize ho : head.onUpdate ctx u a = o at hv
  generalize ho' : tail.onUpdate ctx u b = o' at hv'
  cases hv with
  | rejected hr ha =>
    rw [onUpdate_head_thrown ho b]
    exact .rejected (.inl hr) ⟨ha,hb⟩
  | @committed hook a₁ a₂ hr hd ha hh ha' =>
    cases hv' with
    | rejected hr' hb =>
      rw [onUpdate_tail_thrown ho ho']
      exact .rejected (.inr hr') ⟨ha,hb⟩
    | @committed hook' b₁ b₂ hr' hd' hb hh' hb' =>
      rw [onUpdate_returned ho ho']
      have hrun := (hook_tail hh hook' b₁).trans (Procedure.second_returned hh' a₂)
      exact .committed (not_or_intro hr hr') (not_or_intro hd hd') ⟨ha,hb⟩ hrun ⟨ha',hb'⟩
    | @failed hook' b₁ b₂ hr' hd' hb hh' =>
      rw [onUpdate_returned ho ho']
      have hrun := (hook_tail hh hook' b₁).trans (Procedure.second_thrown hh' a₂)
      exact .failed (not_or_intro hr hr') (.inr hd') ⟨ha,hb⟩ hrun
  | @failed hook a₁ a₂ hr hd ha hh =>
    cases hv' with
    | rejected hr' hb =>
      rw [onUpdate_tail_thrown ho ho']
      exact .rejected (.inr hr') ⟨ha,hb⟩
    | committed hr' _ hb =>
      rw [onUpdate_returned ho ho']
      exact .failed (not_or_intro hr hr') (.inl hd) ⟨ha,hb⟩ (hook_head_thrown hh _ _)
    | failed hr' _ hb =>
      rw [onUpdate_returned ho ho']
      exact .failed (not_or_intro hr hr') (.inl hd) ⟨ha,hb⟩ (hook_head_thrown hh _ _)

theorem quiet_cons {ctx : IndexContext Out} {u : Update In} {a : σ} {b : τ} (ha : (head.onUpdate ctx u a).state = a)
    (hb : (tail.onUpdate ctx u b).state = b) : ((cons head tail).onUpdate ctx u (a,b)).state = (a,b) := by
  cases ho : head.onUpdate ctx u a with
  | thrown e a' =>
    rw [onUpdate_head_thrown ho b]
    rw [ho] at ha
    exact congrArg (·,b) ha
  | returned hook a' =>
    rw [ho] at ha
    cases ho' : tail.onUpdate ctx u b with
    | thrown e b' =>
      rw [onUpdate_tail_thrown ho ho']
      rw [ho'] at hb
      exact congrArg₂ Prod.mk ha hb
    | returned hook' b' =>
      rw [onUpdate_returned ho ho']
      rw [ho'] at hb
      exact congrArg₂ Prod.mk ha hb

theorem refines_cons (h : Refines holds rejects defers P head) (h' : Refines holds' rejects' defers' P tail) :
    Refines (Holds holds holds') (Either rejects rejects') (Either defers defers') P (cons head tail) where
  create := ⟨h.create,h'.create⟩
  onUpdate ctx _ _ _ hs hu hP := verdict_cons h h' ctx hs.1 hs.2 hu hP
  rejects_delete S id v := by
    rintro (hr | hr)
    · exact h.rejects_delete S id v hr
    · exact h'.rejects_delete S id v hr
  defers_update S u := by
    rintro (hd | hd)
    · exact h.defers_update S u hd
    · exact h'.defers_update S u hd
  accepts_stored S R s id v hs hR hid hv := by
    rintro (hr | hr)
    · exact h.accepts_stored S R s.1 id v hs.1 hR hid hv hr
    · exact h'.accepts_stored S R s.2 id v hs.2 hR hid hv hr
  keeps_same S s id v hs hv := by
    rintro (hd | hd)
    · exact h.keeps_same S s.1 id v hs.1 hv hd
    · exact h'.keeps_same S s.2 id v hs.2 hv hd
  quiet ctx S s id v hs hv := quiet_cons (h.quiet ctx S s.1 id v hs.1 hv) (h'.quiet ctx S s.2 id v hs.2 hv)

theorem refines_nil : Refines (fun (_ : Contents In) (_ : Unit) => True) (fun _ _ => False) (fun _ _ => False) P
    (nil : Index In Out Unit) where
  create := trivial
  onUpdate _ _ _ _ _ _ _ := .committed not_false not_false trivial rfl trivial
  rejects_delete _ _ _ := not_false
  defers_update _ _ h := h.elim
  accepts_stored _ _ _ _ _ _ _ _ _ := not_false
  keeps_same _ _ _ _ _ _ := not_false
  quiet _ _ _ _ _ _ _ := rfl

end ZipIndex

end ComposableIndexes
