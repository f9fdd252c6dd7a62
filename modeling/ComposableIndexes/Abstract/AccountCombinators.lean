import ComposableIndexes.Abstract.Account

namespace ComposableIndexes

namespace PremapIndex

variable {In InnerIn Out σ : Type} {A : Account InnerIn σ} {inner : Index InnerIn Out σ} {f : In → Option InnerIn}

def account (f : In → Option InnerIn) (A : Account InnerIn σ) : Account In σ :=
  ⟨.comap f A.ledger,.comap f A.trail,A.Shows,A.mark⟩

theorem edit_comap (L : Ledger.{0,0} InnerIn) (f : In → Option InnerIn) (before after : Option In) (x : L.Page) :
    (L.comap f).edit before after x = L.edit (before.bind f) (after.bind f) x := by
  cases before <;> cases after <;> rfl

theorem enterOption_comap (M : Trail.{0,0} InnerIn) (f : In → Option InnerIn) (after : Option In) (x : M.Mark) :
    (M.comap f).enterOption after x = M.enterOption (after.bind f) x := by
  cases after <;> rfl

theorem maintains (f : In → Option InnerIn) (h : A.Maintains inner) : (account f A).Maintains (index f inner) where
  create := h.create
  mark_create := h.mark_create
  onUpdate ctx V s u hs hu := by
    have hedit : (account f A).ledger.edit u.before u.after (V u.id.bits) =
        A.ledger.edit (u.before.bind f) (u.after.bind f) (V u.id.bits) := edit_comap A.ledger f _ _ _
    have henter : (account f A).trail.enterOption u.after ((account f A).mark s) =
        A.trail.enterOption (u.after.bind f) (A.mark s) := enterOption_comap A.trail f _ _
    cases hw : filterMapUpdate f u with
    | none =>
      obtain ⟨hb,ha⟩ := Update.filterMap_none hw
      simp only [index,hw]
      refine ⟨_,s,s,rfl,rfl,?_,?_⟩
      · rw [Account.book,hedit,hb,ha]
        exact (congrArg (fun V => A.Shows V s) (Function.update_eq_self _ V)).mpr hs
      · rw [henter,ha]
        rfl
    | some w =>
      simp only [index,hw]
      have hb := Update.filterMap_before hw
      have ha := Update.filterMap_after hw
      have hid := filterMapUpdate_id hw
      have hc := h.onUpdate ctx V s w hs ?_
      · rw [Account.book,hedit,henter,← hb,← ha,← hid]
        exact hc
      · intro v hv
        rw [hb,Option.bind_eq_some_iff] at hv
        obtain ⟨a,ha,hf⟩ := hv
        obtain ⟨hhas,hent⟩ := hu a ha
        refine ⟨?_,?_⟩
        · rw [hid]
          exact hhas v hf
        · have he : A.trail.enterOption (f a) (A.mark s) = A.mark s := hent
          rw [hf] at he
          exact he

end PremapIndex

namespace ZipIndex

variable {In Out σ τ : Type} {A : Account In σ} {B : Account In τ} {head : Index In Out σ} {tail : Index In Out τ}

def account (A : Account In σ) (B : Account In τ) : Account In (σ × τ) where
  ledger := .prod A.ledger B.ledger
  trail := .prod A.trail B.trail
  Shows V s := A.Shows (fun i => (V i).1) s.1 ∧ B.Shows (fun i => (V i).2) s.2
  mark s := (A.mark s.1,B.mark s.2)

def accountNil (In : Type) : Account In Unit := ⟨.unit In,.unit In,fun _ _ => True,fun _ => ⟨⟩⟩

theorem maintains_nil (In Out : Type) : (accountNil In).Maintains (nil : Index In Out Unit) where
  create := trivial
  mark_create := rfl
  onUpdate _ _ _ _ _ _ := ⟨_,_,_,rfl,rfl,trivial,rfl⟩

theorem edit_prod (L L' : Ledger.{0,0} In) (before after : Option In) (x : (L.prod L').Page) :
    (L.prod L').edit before after x = (L.edit before after x.1,L'.edit before after x.2) := by
  cases before <;> cases after <;> rfl

theorem enterOption_prod (M M' : Trail.{0,0} In) (after : Option In) (x : (M.prod M').Mark) :
    (M.prod M').enterOption after x = (M.enterOption after x.1,M'.enterOption after x.2) := by
  cases after <;> rfl

theorem book_head (u : Update In) (V : BitVec 64 → (account A B).ledger.Page) :
    (fun i => ((account A B).book u V i).1) = A.book u (fun i => (V i).1) := by
  funext i
  have hedit := edit_prod A.ledger B.ledger u.before u.after (V u.id.bits)
  calc ((account A B).book u V i).1
      = Function.update (fun i => (V i).1) u.id.bits
          ((account A B).ledger.edit u.before u.after (V u.id.bits)).1 i :=
        Function.apply_update (fun _ (x : (account A B).ledger.Page) => x.1) V u.id.bits _ i
    _ = A.book u (fun i => (V i).1) i := by
        rw [Account.book]
        exact congrArg (fun x => Function.update (fun i => (V i).1) u.id.bits x i) (congrArg Prod.fst hedit)

theorem book_tail (u : Update In) (V : BitVec 64 → (account A B).ledger.Page) :
    (fun i => ((account A B).book u V i).2) = B.book u (fun i => (V i).2) := by
  funext i
  have hedit := edit_prod A.ledger B.ledger u.before u.after (V u.id.bits)
  calc ((account A B).book u V i).2
      = Function.update (fun i => (V i).2) u.id.bits
          ((account A B).ledger.edit u.before u.after (V u.id.bits)).2 i :=
        Function.apply_update (fun _ (x : (account A B).ledger.Page) => x.2) V u.id.bits _ i
    _ = B.book u (fun i => (V i).2) i := by
        rw [Account.book]
        exact congrArg (fun x => Function.update (fun i => (V i).2) u.id.bits x i) (congrArg Prod.snd hedit)

theorem maintains (h : A.Maintains head) (h' : B.Maintains tail) : (account A B).Maintains (cons head tail) where
  create := ⟨h.create,h'.create⟩
  mark_create := Prod.ext h.mark_create h'.mark_create
  onUpdate ctx V s u hs hu := by
    obtain ⟨a,b⟩ := s
    obtain ⟨hook,a₁,a₂,ho,hh,hsa,hma⟩ := h.onUpdate ctx (fun i => (V i).1) a u hs.1
      (fun v hv => ⟨(hu v hv).1.1,congrArg Prod.fst (hu v hv).2⟩)
    obtain ⟨hook',b₁,b₂,ho',hh',hsb,hmb⟩ := h'.onUpdate ctx (fun i => (V i).2) b u hs.2
      (fun v hv => ⟨(hu v hv).1.2,congrArg Prod.snd (hu v hv).2⟩)
    refine ⟨_,_,_,onUpdate_returned ho ho',(hook_tail hh hook' b₁).trans (Procedure.second_returned hh' a₂),⟨?_,?_⟩,?_⟩
    · rw [book_head]
      exact hsa
    · rw [book_tail]
      exact hsb
    · exact (Prod.ext hma hmb).trans (enterOption_prod A.trail B.trail u.after _).symm

end ZipIndex

namespace GroupedIndex

variable {In Out G σ : Type} [DecidableEq G] {A : Account In σ} {inner : Index In Out σ} {f : In → G}
  {V : BitVec 64 → G → A.ledger.Page} {ixs : State G σ} {g : G} {st : σ}

structure Shows (A : Account In σ) (V : BitVec 64 → G → A.ledger.Page) (ixs : State G σ) : Prop where
  inner : ∀ g st, ixs.get g = some st → A.Shows (fun i => V i g) st
  absent : ∀ g, ixs.get g = none → ∀ i, V i g = A.ledger.blank

def mark (A : Account In σ) (ixs : State G σ) : G → Option A.trail.Mark := fun g => (ixs.get g).map A.mark

def account (f : In → G) (A : Account In σ) : Account In (State G σ) :=
  ⟨.partition f A.ledger,.partition f A.trail,Shows A,mark A⟩

structure Writes (g : G) (st : σ) (ixs ixs' : State G σ) : Prop where
  here : ixs'.get g = some st
  elsewhere : ∀ g', g' ≠ g → ixs'.get g' = ixs.get g'

theorem writes_set (ixs : State G σ) (g : G) (st : σ) : Writes g st ixs (ixs.set g st) :=
  ⟨OrderedMap.get_set_self _ _ _,fun g' hg => by rw [OrderedMap.get_set,if_neg hg]⟩

theorem Writes.set {ixs' : State G σ} (h : Writes g st ixs ixs') (st' : σ) : Writes g st' ixs (ixs'.set g st') :=
  ⟨OrderedMap.get_set_self _ _ _,fun g' hg => by rw [OrderedMap.get_set,if_neg hg,h.elsewhere g' hg]⟩

theorem Writes.shows {ixs' : State G σ} (hw : Writes g st ixs ixs') (h : Shows A V ixs) (i : BitVec 64)
    (x : A.ledger.Page) (hst : A.Shows (Function.update (fun i => V i g) i x) st) :
    Shows A (Function.update V i (Function.update (V i) g x)) ixs' := by
  have hself : (fun j => Function.update V i (Function.update (V i) g x) j g) = Function.update (fun j => V j g) i x := by
    funext j
    by_cases hj : j = i <;> simp [hj]
  have hother {g' : G} (hg : g' ≠ g) : (fun j => Function.update V i (Function.update (V i) g x) j g') = fun j => V j g' := by
    funext j
    by_cases hj : j = i <;> simp [hj,hg]
  refine ⟨?_,?_⟩
  · intro g' st' hg'
    by_cases hg : g' = g
    · rw [hg,hw.here] at hg'
      cases hg'
      rw [hg,hself]
      exact hst
    · rw [hother hg]
      exact h.inner g' st' ((hw.elsewhere g' hg).symm.trans hg')
  · intro g' hg' j
    by_cases hg : g' = g
    · rw [hg,hw.here] at hg'
      cases hg'
    · exact (congrFun (hother hg) j).trans (h.absent g' ((hw.elsewhere g' hg).symm.trans hg') j)

theorem Writes.mark {ixs' : State G σ} (hw : Writes g st ixs ixs') (A : Account In σ) :
    mark A ixs' = Function.update (GroupedIndex.mark A ixs) g (some (A.mark st)) := by
  funext g'
  rw [GroupedIndex.mark,Function.update_apply]
  split_ifs with hg
  · rw [hg,hw.here]
    rfl
  · rw [hw.elsewhere g' hg]
    rfl

theorem mark_get (hg : ixs.get g = some st) : mark A ixs g = some (A.mark st) := by
  rw [mark,hg]
  rfl

theorem getOrCreateGroup_shows (h : A.Maintains inner) (hs : Shows A V ixs) (g : G) :
    ∃ ixs' st, getOrCreateGroup inner g ixs = .returned () ixs' ∧ ixs'.get g = some st ∧ Shows A V ixs' ∧
      mark A ixs' = Function.update (mark A ixs) g (some (A.mark st)) ∧
      A.mark st = (mark A ixs g).getD A.trail.blank ∧ ∀ g', (ixs.get g').isSome = true → ixs'.get g' = ixs.get g' := by
  unfold getOrCreateGroup
  cases hg : ixs.get g with
  | some st =>
    refine ⟨ixs,st,rfl,hg,hs,?_,?_,fun _ _ => rfl⟩
    · rw [← mark_get hg,Function.update_eq_self]
    · rw [mark_get hg,Option.getD_some]
  | none =>
    have hw := writes_set ixs g inner.create
    refine ⟨_,inner.create,rfl,hw.here,?_,hw.mark A,?_,?_⟩
    · have hst : A.Shows (Function.update (fun i => V i g) 0 (V 0 g)) inner.create := by
        have hV : (fun i => V i g) = fun _ => A.ledger.blank := funext (hs.absent g hg)
        rw [Function.update_eq_self,hV]
        exact h.create
      have hset := hw.shows hs 0 (V 0 g) hst
      rwa [Function.update_eq_self,Function.update_eq_self] at hset
    · rw [mark,hg]
      exact h.mark_create
    · intro g' hg'
      rw [OrderedMap.get_set,if_neg]
      rintro rfl
      rw [hg] at hg'
      cases hg'

def bookIn (A : Account In σ) (g : G) (u : Update In) (V : BitVec 64 → G → A.ledger.Page) : BitVec 64 → G → A.ledger.Page :=
  Function.update V u.id.bits (Function.update (V u.id.bits) g (A.ledger.edit u.before u.after (V u.id.bits g)))

theorem inGroup_shows (h : A.Maintains inner) (ctx : IndexContext Out) (hs : Shows A V ixs) {u : Update In}
    (hg : ixs.get g = some st)
    (hu : ∀ v, u.before = some v → A.Written (fun i => V i g) (A.mark st) u.id.bits v) :
    ∃ hook ixs₁ ixs₂ st₂, inGroup g (inner.onUpdate ctx u) ixs = .returned hook ixs₁ ∧
      inGroup g hook ixs₁ = .returned () ixs₂ ∧ Writes g st₂ ixs ixs₂ ∧ Shows A (bookIn A g u V) ixs₂ ∧
      mark A ixs₂ = Function.update (mark A ixs) g (some (A.trail.enterOption u.after (A.mark st))) := by
  obtain ⟨hook,st₁,st₂,ho,hh,hst,hm⟩ := h.onUpdate ctx (fun i => V i g) st u (hs.inner g st hg) hu
  have hw := writes_set ixs g st₁
  have hw₂ := hw.set st₂
  exact ⟨hook,_,_,st₂,inGroup_returned hg ho,inGroup_returned hw.here hh,hw₂,hw₂.shows hs _ _ hst,by rw [hw₂.mark A,hm]⟩

theorem entered_group {v : In} (h : (account f A).trail.Entered v (mark A ixs)) :
    ∃ st, ixs.get (f v) = some st ∧ A.trail.Entered v (A.mark st) := by
  have hv : some (A.trail.enter v ((mark A ixs (f v)).getD A.trail.blank)) = mark A ixs (f v) := by
    have hc := congrFun h (f v)
    exact (Function.update_self (f v) _ (mark A ixs)).symm.trans hc
  cases hg : ixs.get (f v) with
  | none =>
    rw [mark,hg] at hv
    cases hv
  | some st =>
    rw [mark_get hg,Option.getD_some] at hv
    exact ⟨st,rfl,Option.some.inj hv⟩

theorem inGroup_deliver_shows (h : A.Maintains inner) (ctx : IndexContext Out) (hs : Shows A V ixs) {u : Update In}
    (hg : ixs.get g = some st)
    (hu : ∀ v, u.before = some v → A.Written (fun i => V i g) (A.mark st) u.id.bits v) :
    ∃ ixs₁ st₁, inGroup g (inner.deliver ctx u) ixs = .returned () ixs₁ ∧ Writes g st₁ ixs ixs₁ ∧ Shows A (bookIn A g u V) ixs₁ ∧
      mark A ixs₁ = Function.update (mark A ixs) g (some (A.trail.enterOption u.after (A.mark st))) := by
  obtain ⟨st₁,hr,hst,hm⟩ := h.deliver ctx (hs.inner g st hg) hu
  have hw := writes_set ixs g st₁
  exact ⟨_,st₁,inGroup_returned hg hr,hw,hw.shows hs _ _ hst,by rw [hw.mark A,hm]⟩

theorem book_same (id : Id) {v w : In} (h : f v = f w) (V : BitVec 64 → G → A.ledger.Page) :
    (account f A).book (.update id v w) V = bookIn A (f v) (.update id v w) V := by
  have hedit (x : G → A.ledger.Page) : Function.update (Function.update x (f v) (A.ledger.del v (x (f v)))) (f w)
      (A.ledger.add w (Function.update x (f v) (A.ledger.del v (x (f v))) (f w))) =
      Function.update x (f v) (A.ledger.edit (some v) (some w) (x (f v))) := by
    rw [← h,Function.update_self,Function.update_idem]
    rfl
  exact congrArg (Function.update V id.bits) (hedit (V id.bits))

theorem book_move (id : Id) (v w : In) (V : BitVec 64 → G → A.ledger.Page) :
    (account f A).book (.update id v w) V =
      bookIn A (f w) (.add id w) (bookIn A (f v) (.delete id v) V) := by
  have hmove (x : G → A.ledger.Page) : Function.update V id.bits (Function.update x (f w) (A.ledger.add w (x (f w)))) =
      Function.update (Function.update V id.bits x) id.bits (Function.update (Function.update V id.bits x id.bits) (f w)
        (A.ledger.add w (Function.update V id.bits x id.bits (f w)))) := by
    rw [Function.update_self,Function.update_idem]
  exact hmove (Function.update (V id.bits) (f v) (A.ledger.del v (V id.bits (f v))))

theorem onUpdate_inGroup (h : A.Maintains inner) (ctx : IndexContext Out) (hs : Shows A V ixs) {u : Update In}
    (hg : ixs.get g = some st) (hu : ∀ v, u.before = some v → A.Written (fun i => V i g) (A.mark st) u.id.bits v) :
    (account f A).Commits (bookIn A g u V) (Function.update (mark A ixs) g (some (A.trail.enterOption u.after (A.mark st))))
      ((do
        let hook ← inGroup g (inner.onUpdate ctx u)
        pure (inGroup g hook) : Procedure (Exception Out) (State G σ) (Hook Out (State G σ))) ixs) := by
  obtain ⟨hook,ixs₁,ixs₂,st₂,ho,hh,_,hs₂,hm⟩ := inGroup_shows h ctx hs hg hu
  exact ⟨_,ixs₁,ixs₂,Procedure.bind_returned ho,hh,hs₂,hm⟩

variable [JsKey G]

theorem update_move_shows (h : A.Maintains inner) (ctx : IndexContext Out) (hs : Shows A V ixs) {id : Id} {v w : In}
    (hv : (account f A).Written V (mark A ixs) id.bits v) (hne : strictEq (f v) (f w) ≠ true) :
    (account f A).Commits ((account f A).book (.update id v w) V) ((account f A).trail.enter w (mark A ixs))
      (update inner f ctx id v w ixs) := by
  obtain ⟨hhas,hent⟩ := hv
  obtain ⟨st,hst,hst_ent⟩ := entered_group hent
  obtain ⟨ixs',st₂,hget,hst₂,hs',hm',hblank,hkeep⟩ := getOrCreateGroup_shows h hs (f w)
  have hst' : ixs'.get (f v) = some st := by rw [hkeep (f v) (by rw [hst]; rfl),hst]
  obtain ⟨ixs₁,st₁,hdel,hw₁,hs₁,hm₁⟩ := inGroup_deliver_shows (u := .delete id v) h ctx hs' hst'
    (fun v' hv' => by cases hv'; exact ⟨hhas,hst_ent⟩)
  have hm₁' : mark A ixs₁ = Function.update (mark A ixs) (f w) (some (A.mark st₂)) := by
    have he : A.trail.enterOption (Update.delete id v).after (A.mark st) = A.mark st := rfl
    rw [hm₁,he,← mark_get hst',Function.update_eq_self,hm']
  obtain ⟨st₃,hst₃,hmark₃⟩ : ∃ st₃, ixs₁.get (f w) = some st₃ ∧ A.mark st₃ = A.mark st₂ := by
    have hc := congrFun hm₁' (f w)
    rw [Function.update_self,mark,Option.map_eq_some_iff] at hc
    exact hc
  obtain ⟨ixs₂,st₄,hadd,hw₂,hs₂,hm₂⟩ := inGroup_deliver_shows (u := .add id w) h ctx hs₁ hst₃
    (fun v' hv' => by cases hv')
  have hhas' : ixs.has (f v) = true := by simp [hst]
  refine ⟨_,ixs',ixs₂,?_,(Hook.andThen_returned hdel).trans hadd,?_,?_⟩
  · rw [update,if_neg hne,Procedure.bind_returned (Procedure.read_apply _ _),Procedure.bind_returned hget,
      Procedure.pure_apply,hhas',if_pos rfl]
  · rw [book_move]
    exact hs₂
  · have he : A.trail.enterOption (Update.add id w).after (A.mark st₃) = A.trail.enter w (A.mark st₃) := rfl
    rw [he,hm₁',Function.update_idem,hmark₃,hblank] at hm₂
    exact hm₂

theorem maintains (f : In → G) (h : A.Maintains inner) : (account f A).Maintains (index f inner) where
  create := ⟨fun g st hg => by simp [index] at hg,fun _ _ _ => rfl⟩
  mark_create := rfl
  onUpdate ctx V ixs u hs hu := by
    cases u with
    | add id v =>
      obtain ⟨ixs',st,hget,hst,hs',hm',hblank,_⟩ := getOrCreateGroup_shows h hs (f v)
      have hc := onUpdate_inGroup (f := f) (u := .add id v) h ctx hs' hst (fun v' hv' => by cases hv')
      have he : A.trail.enterOption (Update.add id v).after (A.mark st) = A.trail.enter v (A.mark st) := rfl
      rw [he,hm',Function.update_idem,hblank] at hc
      simp only [index,add]
      rw [Procedure.bind_returned hget]
      exact hc
    | delete id v =>
      obtain ⟨hhas,hent⟩ := hu v rfl
      obtain ⟨st,hst,hst_ent⟩ := entered_group hent
      have hc := onUpdate_inGroup (f := f) (u := .delete id v) h ctx hs hst
        (fun v' hv' => by cases hv'; exact ⟨hhas,hst_ent⟩)
      have he : A.trail.enterOption (Update.delete id v).after (A.mark st) = A.mark st := rfl
      rw [he,← mark_get hst,Function.update_eq_self] at hc
      exact hc
    | update id v w =>
      by_cases hne : strictEq (f v) (f w) = true
      · have hfw := eq_of_strictEq hne
        obtain ⟨hhas,hent⟩ := hu v rfl
        obtain ⟨st,hst,hst_ent⟩ := entered_group hent
        have hc := onUpdate_inGroup (f := f) (u := .update id v w) h ctx hs hst
          (fun v' hv' => by cases hv'; exact ⟨hhas,hst_ent⟩)
        have he : Function.update (mark A ixs) (f v)
            (some (A.trail.enterOption (Update.update id v w).after (A.mark st))) =
            (account f A).trail.enter w (mark A ixs) := by
          have hw : (account f A).trail.enter w (mark A ixs) = Function.update (mark A ixs) (f w)
              (some (A.trail.enter w ((mark A ixs (f w)).getD A.trail.blank))) := rfl
          rw [hw,← hfw,mark_get hst]
          rfl
        simp only [index,update]
        rw [if_pos hne]
        exact hc.congr (book_same id hfw V).symm he
      · exact update_move_shows h ctx hs (hu v rfl) hne

end GroupedIndex

namespace UnregisteredAggregateIndex

noncomputable def account : {In Value : Type} → (a : UnregisteredAggregateIndex In Value) → Account In a.State
  | _, _, .fold args => FoldIndex.account args
  | _, _, @mapAggregate _ _ _ _ _ _ inner pre _ => PremapIndex.account (JsValue.onValues pre) inner.account

theorem maintains {In Value : Type} (Out : Type) (a : UnregisteredAggregateIndex In Value) :
    a.account.Maintains (a.index Out) := by
  induction a with
  | fold args => exact FoldIndex.maintains Out args
  | mapAggregate inner pre m ih => exact PremapIndex.maintains _ ih

end UnregisteredAggregateIndex

namespace UnregisteredIndex

noncomputable def account : {In : Type} → (e : UnregisteredIndex In) → Account In e.State
  | _, @hashIndex K _ => HashIndex.account K
  | _, @btreeIndex _ _ _ lib => BTreeIndex.account lib
  | _, @uniqueHashIndex K _ => ⟨.unit K,.unit K,fun _ _ => True,fun _ => ⟨⟩⟩
  | _, .aggregate a => a.account
  | _, .premap f inner => PremapIndex.account f inner.account
  | _, @group _ _ _ _ f inner => GroupedIndex.account f inner.account
  | In, .zipNil => ZipIndex.accountNil In
  | _, .zipCons head tail => ZipIndex.account head.account tail.account

theorem maintains {In : Type} (Out : Type) (e : UnregisteredIndex In) (h : e.NoUnique) :
    e.account.Maintains (e.index Out) := by
  induction e with
  | hashIndex => exact HashIndex.maintains Out
  | btreeIndex lib => exact BTreeIndex.maintains Out lib
  | uniqueHashIndex => exact h.elim
  | aggregate a => exact a.maintains Out
  | premap f inner ih => exact PremapIndex.maintains f (ih h)
  | group f inner ih => exact GroupedIndex.maintains f (ih h)
  | zipNil => exact ZipIndex.maintains_nil _ Out
  | zipCons head tail ihh iht => exact ZipIndex.maintains (ihh h.1) (iht h.2)

end UnregisteredIndex

end ComposableIndexes
