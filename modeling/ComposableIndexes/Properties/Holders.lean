import ComposableIndexes.Abstract.Account
import ComposableIndexes.Abstract.Mentions
import ComposableIndexes.Abstract.Runs
import ComposableIndexes.Properties.Premap
import ComposableIndexes.Properties.Zip

namespace ComposableIndexes

variable {P Q : Id → Prop}

-- Of the item of `a` only `a` itself, of the other items what `P` says of them.
def Reheld (P : Id → Prop) (a id : Id) : Prop := id = a ∨ P id ∧ id.bits ≠ a.bits

theorem reheld_of_absent {A : Type} {S : Contents A} {a : Id} (ha : S a.bits = none) (id : Id) (v : A)
    (hv : S id.bits = some v) (h : P id) : Reheld P a id := by
  refine .inr ⟨h,?_⟩
  intro hab
  rw [hab,ha] at hv
  cases hv

theorem UniqueHashIndex.Holds.imp {K : Type} [DecidableEq K] {S : Contents K} {ix : State K} (h : Holds P S ix)
    (hPQ : ∀ id k, S id.bits = some k → P id → Q id) : Holds Q S ix :=
  ⟨h.holder,fun k id hid => hPQ id k (h.stored hid) (h.ids k id hid)⟩

theorem UnregisteredIndex.holds_imp {In : Type} {e : UnregisteredIndex In} {S : Contents In} {s : e.State}
    (h : e.Holds P S s) (hPQ : ∀ id v, S id.bits = some v → P id → Q id) : e.Holds Q S s := by
  induction e with
  | hashIndex => exact h
  | btreeIndex lib => exact h
  | uniqueHashIndex => exact UniqueHashIndex.Holds.imp h hPQ
  | aggregate a => exact h
  | premap f inner ih =>
    refine ih h ?_
    intro id w hw
    obtain ⟨v,hv,_⟩ := Option.bind_eq_some_iff.mp hw
    exact hPQ id v hv
  | group f inner ih =>
    refine ⟨fun g st hg => ih (h.inner g st hg) ?_,h.present⟩
    intro id v hv
    exact hPQ id v ((GroupedIndex.filterMap_part S f g id.bits v).mp hv).1
  | zipNil => trivial
  | zipCons head tail ihh iht => exact ⟨ihh h.1 hPQ,iht h.2 hPQ⟩

theorem Update.valid_before {A : Type} (u : Update A) {S : Contents A} (hu : u.ValidAt S) : S u.id.bits = u.before := by
  cases u <;> exact hu

section Delivered

variable {In Out : Type} {e : UnregisteredIndex In} {ctx : IndexContext Out} {S : Contents In} {s s' : e.State}
  {u : Update In} {id : Id}

theorem holds_delivered (h : e.Holds P S s) (hu : u.ValidAt S) (hP : P u.id)
    (hr : (e.index Out).deliver ctx u s = .returned () s') : e.Holds P (u.apply S) s' := by
  by_cases hc : e.Clashes S u
  · obtain ⟨t,ht⟩ := (e.refines Out P).deliver_thrown ctx h hu hP hc
    rw [hr] at ht
    cases ht
  · obtain ⟨t,ht,hs⟩ := (e.refines Out P).deliver_returned ctx h hu hP (fun hrej => hc (.inl hrej))
      (fun hdef => hc (.inr hdef))
    rw [hr] at ht
    cases ht
    exact hs

-- Whatever an index takes up, it holds under the id of the update from then on.
def Reholds (P : Id → Prop) (Out : Type) (e : UnregisteredIndex In) : Prop :=
  ∀ ctx S s u s', e.Holds P S s → Update.ValidAt S u → (e.index Out).deliver ctx u s = .returned () s' →
    e.Holds (Reheld P u.id) (u.apply S) s'

theorem reheld_unchanged (h : e.Holds P S s) (hi : S id.bits = none) : e.Holds (Reheld P id) S s :=
  UnregisteredIndex.holds_imp h (reheld_of_absent hi)

theorem reheld_of_add (h : e.Holds P S s) {v : In} (hi : S id.bits = none)
    (hr : (e.index Out).deliver ctx (.add id v) s = .returned () s') : e.Holds (Reheld P id) (S.set id.bits v) s' :=
  holds_delivered (u := .add id v) (reheld_unchanged h hi) hi (.inl rfl) hr

theorem holds_of_delete (h : e.Holds P S s) {v : In} (hu : S id.bits = some v)
    (hr : (e.index Out).deliver ctx (.delete id v) s = .returned () s') : e.Holds P (S.erase id.bits) s' := by
  have h' : e.Holds (fun a => P a ∨ a = id) S s := UnregisteredIndex.holds_imp h (fun _ _ _ ha => .inl ha)
  refine UnregisteredIndex.holds_imp (holds_delivered (u := .delete id v) h' hu (.inr rfl) hr) ?_
  rintro a w hw (ha | rfl)
  · exact ha
  · cases hw.symm.trans (S.erase_self a.bits)

theorem reholds_of_update (h : ∀ (ctx : IndexContext Out) S s (id : Id) v w s', e.Holds P S s → S id.bits = some v →
    (e.index Out).deliver ctx (.update id v w) s = .returned () s' → e.Holds (Reheld P id) (S.set id.bits w) s') :
    Reholds P Out e := by
  intro ctx S s u s' hs hu hr
  cases u with
  | add id v => exact reheld_of_add hs hu hr
  | update id v w => exact h ctx S s id v w s' hs hu hr
  | delete id v => exact reheld_unchanged (holds_of_delete hs hu hr) (S.erase_self id.bits)

end Delivered

namespace UniqueHashIndex

variable {K Out : Type} [DecidableEq K]

theorem reholds (P : Id → Prop) : Reholds P Out (.uniqueHashIndex : UnregisteredIndex K) := by
  refine reholds_of_update ?_
  intro ctx S s id v w s' hs hv hr
  have ho : (index : Index K Out (State K)).onUpdate ctx (.update id v w) s =
      if OrderedMap.has s w then .thrown (conflictException ctx id) s else .returned (Procedure.write (update id v w)) s := rfl
  have hrun : (index : Index K Out (State K)).deliver ctx (.update id v w) s = .returned () s' := hr
  obtain ⟨hook,s₁,ho',hhook⟩ := Procedure.returned_of_bind hrun
  rw [ho] at ho'
  by_cases hw : OrderedMap.has s w = true
  · rw [if_pos hw] at ho'
    cases ho'
  · rw [if_neg hw] at ho'
    cases ho'
    cases hhook
    have hd : Holds (Reheld P id) (S.erase id.bits) (delete v s) :=
      (holds_delete hs hv).imp (reheld_of_absent (S.erase_self id.bits))
    have hfree : ∀ i, S.erase id.bits i ≠ some w :=
      fun i hi => hw ((has_iff hs w).mpr ⟨i,S.sub_erase id.bits i w hi⟩)
    have ha := holds_add hd (S.erase_self id.bits) hfree (.inl rfl)
    rwa [PartialMap.erase_set] at ha

end UniqueHashIndex

namespace GroupedIndex

variable {In Out G σ : Type} [DecidableEq G]

variable [JsKey G] {inner : UnregisteredIndex In} {f : In → G} {S : Contents In} {ctx : IndexContext Out}

-- The inner index of the group that an update leads to has taken the update up, or, after a move, an addition.
theorem update_delivers (hin : Reholds P Out inner) {ixs ixs' : State G inner.State} (h : Holds f (inner.Holds P) S ixs)
    {id : Id} {v w : In} (hv : S id.bits = some v)
    (hr : (index f (inner.index Out)).deliver ctx (.update id v w) ixs = .returned () ixs') :
    ∃ st, ixs'.get (f w) = some st ∧ inner.Holds (Reheld P id) ((S.set id.bits w).filterMap (part f (f w))) st := by
  have hrun : (update (inner.index Out) f ctx id v w >>= fun hook => hook) ixs = .returned () ixs' := hr
  have hu : Update.ValidAt S (.update id v w) := hv
  obtain ⟨hook,ixs₁,hup,hhook⟩ := Procedure.returned_of_bind hrun
  by_cases he : strictEq (f v) (f w) = true
  · rw [update,if_pos he] at hup
    obtain ⟨cb,ixs₂,hin₁,hp⟩ := Procedure.returned_of_bind hup
    cases hp
    obtain ⟨st,st₁,hg,ho,rfl⟩ := of_inGroup hin₁
    obtain ⟨st₁',st₂,hg₁,hh,rfl⟩ := of_inGroup hhook
    rw [OrderedMap.get_set_self] at hg₁
    cases hg₁
    have hl := (local_update f id (eq_of_strictEq he)).same
    have hs := hin ctx _ st (.update id v w) st₂ (h.inner _ st hg) (Update.valid_filterMap hu hl)
      ((Procedure.bind_returned ho).trans hh)
    rw [Update.apply_filterMap hu hl] at hs
    rw [← eq_of_strictEq he]
    exact ⟨st₂,OrderedMap.get_set_self _ _ _,hs⟩
  · rw [update,if_neg he] at hup
    obtain ⟨oldIx,_,hread,hup⟩ := Procedure.returned_of_bind hup
    cases hread
    obtain ⟨_,ixs₂,hget,hp⟩ := Procedure.returned_of_bind hup
    cases hp
    obtain ⟨ixs₂',hget',h',_,_⟩ := getOrCreateGroup_spec (inner.refines Out P) h (f w)
    rw [hget] at hget'
    cases hget'
    have hold : OrderedMap.has ixs (f v) = true := (OrderedMap.has_eq ixs (f v)).trans (h.present id.bits v hv)
    have hmove : Hook.andThen (inGroup (f v) ((inner.index Out).deliver ctx (.delete id v)))
        (inGroup (f w) ((inner.index Out).deliver ctx (.add id w))) ixs₁ = .returned () ixs' := by
      simpa only [hold,if_true] using hhook
    obtain ⟨ixs₃,hdel,hadd⟩ := Hook.of_andThen hmove
    obtain ⟨st,st₁,hg,hd,rfl⟩ := of_inGroup hdel
    obtain ⟨st₂,st₃,hg₂,ha,rfl⟩ := of_inGroup hadd
    have hst₂ : inner.Holds P ((S.filterMap (part f (f w))).erase id.bits) st₂ := by
      rw [OrderedMap.get_set] at hg₂
      by_cases hvw : f w = f v
      · rw [if_pos hvw] at hg₂
        cases hg₂
        rw [hvw]
        exact holds_of_delete (h'.inner _ st hg) ((filterMap_part S f (f v) id.bits v).mpr ⟨hv,rfl⟩) hd
      · rw [if_neg hvw] at hg₂
        rw [PartialMap.erase_eq_self (by simp [hv,part,Ne.symm hvw])]
        exact h'.inner _ st₂ hg₂
    have hs := reheld_of_add hst₂ (PartialMap.erase_self _ _) ha
    rw [PartialMap.erase_set,← PartialMap.filterMap_set_some (part f (f w)) S id.bits (if_pos rfl)] at hs
    exact ⟨st₃,OrderedMap.get_set_self _ _ _,hs⟩

theorem reholds (hin : Reholds P Out inner) (f : In → G) : Reholds P Out (.group f inner) := by
  refine reholds_of_update ?_
  intro ctx S ixs id v w ixs' h hv hr
  have hall : Holds f (inner.Holds (fun a => P a ∨ a = id)) (S.set id.bits w) ixs' := by
    refine holds_delivered (e := .group f inner) (u := .update id v w) ?_ hv (.inr rfl) hr
    exact UnregisteredIndex.holds_imp (e := .group f inner) h (fun _ _ _ ha => .inl ha)
  refine ⟨?_,hall.present⟩
  intro g st hg
  by_cases hgw : g = f w
  · subst hgw
    obtain ⟨st',hg',hs⟩ := update_delivers hin h hv hr
    rw [hg] at hg'
    cases hg'
    exact hs
  · refine UnregisteredIndex.holds_imp (hall.inner g st hg) ?_
    intro a x hx ha
    obtain ⟨hx,hgx⟩ := (filterMap_part _ f g a.bits x).mp hx
    have hne : a.bits ≠ id.bits := by
      intro hab
      rw [hab,PartialMap.set_self] at hx
      cases hx
      exact hgw hgx.symm
    refine .inr ⟨ha.resolve_right ?_,hne⟩
    rintro rfl
    exact hne rfl

end GroupedIndex

theorem UnregisteredIndex.reholds {In : Type} (P : Id → Prop) (Out : Type) (e : UnregisteredIndex In) :
    Reholds P Out e := by
  induction e with
  | hashIndex =>
    intro ctx S s u s' hs hu hr
    have hs' : Holds (Reheld P u.id) .hashIndex S s := hs
    exact holds_delivered hs' hu (.inl rfl) hr
  | btreeIndex lib =>
    intro ctx S s u s' hs hu hr
    have hs' : Holds (Reheld P u.id) (.btreeIndex lib) S s := hs
    exact holds_delivered hs' hu (.inl rfl) hr
  | uniqueHashIndex => exact UniqueHashIndex.reholds P
  | aggregate a =>
    intro ctx S s u s' hs hu hr
    have hs' : Holds (Reheld P u.id) (.aggregate a) S s := hs
    exact holds_delivered hs' hu (.inl rfl) hr
  | premap f inner ih =>
    intro ctx S s u s' hs hu hr
    cases hw : filterMapUpdate f u with
    | none =>
      cases (PremapIndex.deliver_none hw (inner.index Out) ctx s).symm.trans hr
      have hi : S.filterMap f u.id.bits = none := by
        rw [PartialMap.filterMap_apply,u.valid_before hu]
        exact (Update.filterMap_none hw).1
      have hs' := reheld_unchanged (e := inner) hs hi
      rwa [← Update.apply_filterMap_of_none hu hw] at hs'
    | some w =>
      have hrun : (inner.index Out).deliver ctx w s = .returned () s' :=
        (congrFun (PremapIndex.deliver_some hw (inner.index Out) ctx) s).symm.trans hr
      have hs' := ih ctx _ s w s' hs (Update.valid_filterMap hu hw) hrun
      rwa [filterMapUpdate_id hw,Update.apply_filterMap hu hw] at hs'
  | group f inner ih => exact GroupedIndex.reholds ih f
  | zipNil => exact fun _ _ _ _ _ _ _ _ => trivial
  | zipCons head tail ihh iht =>
    intro ctx S s u s' hs hu hr
    obtain ⟨hh,ht⟩ := ZipIndex.deliver_cons hr
    exact ⟨ihh ctx S _ u _ hs.1 hu hh,iht ctx S _ u _ hs.2 hu ht⟩

namespace Query

variable {Out : Type} {ctx : IndexContext Out}

def AsksUnique : {In R : Type} → {e : UnregisteredIndex In} → Query Out e R → Prop
  | _, _, _, @uniqueEq _ _ _ _ => True
  | _, _, _, @uniqueCountDistinct _ _ _ => True
  | _, _, _, .premapGet q => q.AsksUnique
  | _, _, _, @groupGet _ _ _ _ _ _ _ _ _ q => q.AsksUnique
  | _, _, _, .zipHead q => q.AsksUnique
  | _, _, _, .zipTail q => q.AsksUnique
  | _, _, _, _ => False

theorem items_held {In R : Type} {e : UnregisteredIndex In} (q : Query Out e R) (hq : q.AsksUnique) {S : Contents In}
    {s : e.State} (h : e.Holds P S s) {r : R} (hr : q.run ctx s = .ok r) : ∀ it ∈ q.items r, P it.id := by
  induction q with
  | uniqueEq key =>
    cases hr
    have h' : UniqueHashIndex.Holds P S s := h
    exact item_of_holder (fun k id hid => h'.ids k id hid) key
  | uniqueCountDistinct => simp [items]
  | premapGet q ih => exact ih hq h hr
  | groupGet g q ih =>
    rcases run_groupGet hr with ⟨_,rfl⟩ | ⟨st,r',hg,ho,rfl⟩
    · simp [items]
    · exact ih hq (GroupedIndex.Holds.inner h g st hg) ho
  | zipHead q ih => exact ih hq h.1 hr
  | zipTail q ih => exact ih hq h.2 hr
  | _ => exact hq.elim

theorem set_unsigned (set : IdSet) : set.Mentions Id.Unsigned := fun id hid => ((set.mem_values id).mp hid).1

theorem tree_unsigned {K : Type} [LinearOrder K] (lib : SortedBTree K IdSet) (ix : lib.Tree) :
    BTreeIndex.Mentions lib Id.Unsigned ix := fun _ set _ => set_unsigned set

-- Whatever a hash index or a B-tree holds, the ids that it hands back are rebuilt from their halves.
theorem items_unsigned {In R : Type} {e : UnregisteredIndex In} (q : Query Out e R) (hq : ¬q.AsksUnique) {s : e.State}
    {r : R} (hr : q.run ctx s = .ok r) : ∀ it ∈ q.items r, it.id.Unsigned := by
  induction q with
  | hashEq key =>
    cases hr
    exact items_of_set (fun set _ => set_unsigned set)
  | @btreeEq _ _ _ lib key =>
    cases hr
    exact items_of_set (fun set _ => set_unsigned set)
  | @btreeMax _ _ _ lib =>
    cases hr
    exact items_of_extremes (tree_unsigned lib s) _
  | @btreeMin _ _ _ lib =>
    cases hr
    exact items_of_extremes (tree_unsigned lib s) _
  | @btreeMax1 _ _ _ lib => exact item_of_extreme1 (tree_unsigned lib s) hr
  | @btreeMin1 _ _ _ lib => exact item_of_extreme1 (tree_unsigned lib s) hr
  | @btreeRange _ _ _ lib low high limit =>
    cases hr
    exact items_of_range (tree_unsigned lib s) low high limit
  | uniqueEq key => exact absurd trivial hq
  | premapGet q ih => exact ih hq hr
  | groupGet g q ih =>
    rcases run_groupGet hr with ⟨_,rfl⟩ | ⟨st,r',_,ho,rfl⟩
    · simp [items]
    · exact ih hq ho
  | zipHead q ih => exact ih hq hr
  | zipTail q ih => exact ih hq hr
  | _ => simp [items]

end Query

end ComposableIndexes
