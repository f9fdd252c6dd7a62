import ComposableIndexes.Abstract.Exchange
import ComposableIndexes.Abstract.Invariants
import ComposableIndexes.Properties.Premap
import ComposableIndexes.Properties.Recovery
import ComposableIndexes.Properties.Zip

namespace ComposableIndexes

open Procedure (Keeps)

section SetBuckets

variable {K : Type} {S : Contents K} {sets sets' : K → Option IdSet} {id : Id} {k : K} {set : IdSet}

theorem toSet_delete_absent (h : Buckets S (fun k => (sets k).map IdSet.toSet)) (hi : S id.bits = none)
    (hg : sets k = some set) : (set.delete id).toSet = set.toSet ∧ ¬(set.delete id).empty = true := by
  have hk : (fun k => (sets k).map IdSet.toSet) k = some set.toSet := by simp [hg]
  have hn : id.bits ∉ set.toSet := by simp [h.mem_bucket hk,hi]
  have he : (set.delete id).toSet = set.toSet := by rw [IdSet.toSet_delete,Set.sdiff_singleton_eq_self hn]
  refine ⟨he,?_⟩
  rw [IdSet.empty_iff,he]
  exact (h.nonempty k _ hk).ne_empty

theorem buckets_delete_absent (h : Buckets S (fun k => (sets k).map IdSet.toSet)) (hi : S id.bits = none)
    (hg : sets k = some set) (hk : sets' k = some (set.delete id)) (hne : ∀ k', k' ≠ k → sets' k' = sets k') :
    Buckets S (fun k => (sets' k).map IdSet.toSet) := by
  have hsame : (fun k => (sets' k).map IdSet.toSet) = fun k => (sets k).map IdSet.toSet := by
    funext k'
    by_cases hkk : k' = k
    · subst hkk
      simp [hk,hg,(toSet_delete_absent h hi hg).1]
    · rw [hne k' hkk]
  rw [hsame]
  exact h

end SetBuckets

namespace HashIndex

variable {K Out : Type} [DecidableEq K] {S : Contents K} {id : Id}

theorem delete_absent_keeps (hi : S id.bits = none) (k : K) : Keeps (Holds S) (fun _ => True) (fun _ => True)
    (delete id k : Procedure (Exception Out) (State K) Unit) := by
  intro ix h
  unfold delete
  cases hg : ix.get k with
  | none => exact .thrown trivial h
  | some set =>
    simp only [if_neg (toSet_delete_absent h hi hg).2]
    exact .returned trivial (buckets_delete_absent h hi hg (by simp) (fun _ hk => by simp [OrderedMap.get_set,hk]))

end HashIndex

namespace BTreeIndex

variable {K : Type} [LinearOrder K] [JsKey K] {lib : SortedBTree K IdSet} {S : Contents K} {ix : lib.Tree} {id : Id}

omit [JsKey K] in
theorem delete_absent_holds (h : Holds lib S ix) (hi : S id.bits = none) (k : K) : Holds lib S (delete lib id k ix) := by
  unfold delete
  cases hg : lib.get ix k with
  | none => exact h
  | some set =>
    simp only [if_neg (toSet_delete_absent h hi hg).2]
    exact buckets_delete_absent h hi hg (by simp [lib.get_set]) (fun _ hk => by simp [lib.get_set,hk])

end BTreeIndex

namespace UniqueHashIndex

variable {K : Type} [DecidableEq K] {P : Id → Prop} {S : Contents K} {ix : State K} {k : K}

theorem delete_free_holds (h : Holds P S ix) (hk : ¬∃ i, S i = some k) : Holds P S (delete k ix) := by
  have hfree : ix.get k = none := by
    rw [← has_iff h,OrderedMap.has_eq] at hk
    simpa using hk
  have hget (k' : K) : (delete k ix).get k' = ix.get k' := by
    rw [delete,OrderedMap.get_delete]
    split_ifs with hkk
    · rw [hkk,hfree]
    · rfl
  refine ⟨?_,?_⟩
  · intro k' i
    rw [hget]
    exact h.holder k' i
  · intro k' id hid
    rw [hget] at hid
    exact h.ids k' id hid

end UniqueHashIndex

namespace GroupedIndex

variable {In Out G σ α : Type} [DecidableEq G] {f : In → G} {holds : Contents In → σ → Prop} {S : Contents In} {g : G}
  {A : α → Prop} {x : Procedure (Exception Out) σ α}

theorem inGroup_holds (hx : Keeps (holds (S.filterMap (part f g))) (fun _ => True) A x) :
    Keeps (Holds f holds S) (fun _ => True) A (inGroup g x) := by
  intro ixs h
  unfold inGroup OrderedMap.atKey
  cases hg : ixs.get g with
  | none => exact .thrown trivial h
  | some st => exact (hx st (h.inner g st hg)).mapState (fun _ hst => holds_set h hst)

end GroupedIndex

namespace UnregisteredIndex

def NoFold : {In : Type} → UnregisteredIndex In → Prop
  | _, @hashIndex _ _ => True
  | _, @btreeIndex _ _ _ _ => True
  | _, @uniqueHashIndex _ _ => True
  | _, .aggregate _ => False
  | _, .premap _ inner => inner.NoFold
  | _, @group _ _ _ _ _ inner => inner.NoFold
  | _, .zipNil => True
  | _, .zipCons head tail => head.NoFold ∧ tail.NoFold

theorem NoFold.lawful {In : Type} {e : UnregisteredIndex In} (h : e.NoFold) : e.Lawful := by
  induction e with
  | hashIndex => trivial
  | btreeIndex lib => trivial
  | uniqueHashIndex => trivial
  | aggregate a => exact h.elim
  | premap f inner ih => exact ih h
  | group f inner ih => exact ih h
  | zipNil => trivial
  | zipCons head tail ihh iht => exact ⟨ihh h.1,iht h.2⟩

-- An index that would have taken the item is left as it was by the deletion of the item it never took.
theorem delete_untaken {In Out : Type} {P : Id → Prop} {e : UnregisteredIndex In} (hn : e.NoFold) (ctx : IndexContext Out)
    {S : Contents In} {id : Id} {v : In} (hi : S id.bits = none) (hr : ¬e.Rejects S (.add id v)) :
    Keeps (e.Holds P S) (fun _ => True) (Keeps (e.Holds P S) (fun _ => True) (fun _ => True))
      ((e.index Out).onUpdate ctx (.delete id v)) := by
  induction e with
  | hashIndex => exact .pure (HashIndex.delete_absent_keeps hi v)
  | btreeIndex lib => exact .pure (.write (fun _ h => BTreeIndex.delete_absent_holds h hi v))
  | uniqueHashIndex => exact fun _ h => .returned (.write (fun _ h => UniqueHashIndex.delete_free_holds h hr)) h
  | aggregate a => exact hn.elim
  | premap f inner ih =>
    simp only [index,PremapIndex.index,filterMapUpdate]
    cases hv : f v with
    | none => exact .pure keeps_skip
    | some w =>
      refine ih hn (by simp [hi]) (fun hrej => hr ⟨.add id w,by simp [filterMapUpdate,hv],hrej⟩)
  | group f inner ih =>
    have hin := ih hn (S := S.filterMap (GroupedIndex.part f (f v))) (v := v) (by simp [hi]) hr
    exact (GroupedIndex.inGroup_holds hin).bind (fun _ hh => .pure (GroupedIndex.inGroup_holds hh))
  | zipNil => exact .pure keeps_skip
  | zipCons head tail ihh iht =>
    refine Keeps.bind (ihh hn.1 hi (fun h => hr (.inl h))).first (fun cb hcb => ?_)
    refine Keeps.bind (iht hn.2 hi (fun h => hr (.inr h))).second (fun cbs hcbs => .pure ?_)
    exact keeps_andThen hcb.first hcbs.second

end UnregisteredIndex

namespace GroupedIndex

variable {In Out G σ : Type} [DecidableEq G] [JsKey G] {inner : Index In Out σ} {f : In → G} {ctx : IndexContext Out}

theorem deliver_delete {id : Id} {v : In} {ixs ixs' : State G σ}
    (h : (index f inner).deliver ctx (.delete id v) ixs = .returned () ixs') :
    ∃ st st', inner.deliver ctx (.delete id v) st = .returned () st' ∧ ixs'.get (f v) = some st' := by
  obtain ⟨_,_,hon,hhook⟩ := Procedure.returned_of_bind h
  obtain ⟨_,_,hin,hpure⟩ := Procedure.returned_of_bind hon
  cases hpure
  obtain ⟨st,st₁,_,ho,rfl⟩ := of_inGroup hin
  obtain ⟨st₁',st',hg,hh,rfl⟩ := of_inGroup hhook
  rw [OrderedMap.get_set_self] at hg
  cases hg
  exact ⟨st,st',(Procedure.bind_returned ho).trans hh,OrderedMap.get_set_self _ _ _⟩

end GroupedIndex

namespace UnregisteredIndex

-- The unique leaf that would not take the item drops the entry of the item that holds the key.
theorem delete_of_rejected {In Out : Type} {e : UnregisteredIndex In} {ctx : IndexContext Out} {S : Contents In} {id : Id}
    {v : In} {s s' : e.State} (hr : e.Rejects S (.add id v))
    (hd : (e.index Out).deliver ctx (.delete id v) s = .returned () s') (P : Id → Prop) (ctx' : IndexContext Out)
    (root : Contents Out) :
    ∃ (R : Type) (q : Query Out e R) (r : R), q.run ctx' s' = .ok r ∧ ¬q.Means P root S r := by
  induction e with
  | hashIndex => exact hr.elim
  | btreeIndex lib => exact hr.elim
  | uniqueHashIndex =>
    obtain ⟨i,hi⟩ := hr
    cases hd
    refine ⟨_,.uniqueEq v,none,?_,?_⟩
    · have hnone : OrderedMap.get (OrderedMap.delete s v) v = none := (OrderedMap.get_delete s v v).trans (if_pos rfl)
      simp only [Query.run,UniqueHashIndex.eq,UniqueHashIndex.delete,hnone,Option.map_none]
    · rintro ⟨_,hch⟩
      have hnone := hch.absent.mp rfl
      exact (Set.eq_empty_iff_forall_notMem.mp hnone) i hi
  | aggregate a => exact hr.elim
  | @premap In InnerIn f inner ih =>
    obtain ⟨w,hw,hrej⟩ := hr
    cases hv : f v with
    | none => simp [filterMapUpdate,hv] at hw
    | some b =>
      obtain rfl : Update.add id b = w := by simpa [filterMapUpdate,hv] using hw
      have hdel : filterMapUpdate f (.delete id v) = some (.delete id b) := by simp [filterMapUpdate,hv]
      have hd' : (PremapIndex.index f (inner.index Out)).deliver ctx (.delete id v) s = .returned () s' := hd
      rw [PremapIndex.deliver_some hdel] at hd'
      obtain ⟨R,q,r,hq,hm⟩ := ih hrej hd'
      exact ⟨R,.premapGet q,r,hq,hm⟩
  | group f inner ih =>
    obtain ⟨st,st',hd',hg⟩ := GroupedIndex.deliver_delete hd
    obtain ⟨R,q,r,hq,hm⟩ := ih hr hd'
    refine ⟨_,.groupGet (f v) q,some r,?_,fun hmeans => hm (hmeans.2 r rfl)⟩
    simp only [Query.run,hg,hq]
    rfl
  | zipNil => exact hr.elim
  | zipCons head tail ihh iht =>
    obtain ⟨hdh,hdt⟩ := ZipIndex.deliver_cons hd
    rcases hr with hr | hr
    · obtain ⟨R,q,r,hq,hm⟩ := ihh hr hdh
      exact ⟨R,.zipHead q,r,hq,hm⟩
    · obtain ⟨R,q,r,hq,hm⟩ := iht hr hdt
      exact ⟨R,.zipTail q,r,hq,hm⟩

end UnregisteredIndex

namespace Collection

variable {T : Type} {P : Id → Prop} {S : Contents T}

theorem stopped_holds {ctx : IndexContext T} {u : Update T} {ixs ixs' : List (RegisteredIndex T)} {x : Exception T}
    (h : ∀ ix ∈ ixs, ix.Tracks P S) (hu : u.ValidAt S) (hP : P u.id) (he : collectHooks ctx u ixs = .error (x,ixs')) :
    ∀ ix ∈ ixs', ix.expr.Holds P S ix.state := by
  induction ixs generalizing ixs' with
  | nil => cases he
  | cons ix rest ih =>
    obtain ⟨hix,hrest⟩ := List.forall_mem_cons.mp h
    have hv := (ix.expr.refines T P).onUpdate ctx S ix.state u hix.holds hu hP
    have hcons {s : ix.expr.State} {ixs₁ : List (RegisteredIndex T)} (hs : ix.expr.Holds P S s)
        (hm : ∀ ix' ∈ ixs₁, ix'.expr.Holds P S ix'.state) :
        ∀ ix' ∈ (⟨ix.expr,s,ix.log⟩ : RegisteredIndex T) :: ixs₁, ix'.expr.Holds P S ix'.state :=
      List.forall_mem_cons.mpr ⟨hs,hm⟩
    have hgo {hook : Hook T ix.expr.State} {s : ix.expr.State} (hs : ix.expr.Holds P S s)
        (ho : (ix.expr.index T).onUpdate ctx u ix.state = .returned hook s) : ∀ ix' ∈ ixs', ix'.expr.Holds P S ix'.state := by
      simp only [collectHooks,ho] at he
      split at he
      · rename_i e rest' hr
        cases he
        exact hcons hs (ih hrest hr)
      · cases he
    generalize ho : (ix.expr.index T).onUpdate ctx u ix.state = o at hv
    cases hv with
    | rejected _ hs =>
      simp only [collectHooks,ho] at he
      cases he
      exact hcons hs (fun ix' hm => (hrest ix' hm).holds)
    | committed _ _ hs => exact hgo hs ho
    | failed _ _ hs => exact hgo hs ho

variable [JsValue T] {c c₁ : Collection T} {id : Id} {v : T} {x : Exception T}

-- What an `add` leaves that an index has rejected: the item is in the store, and no index has taken it.
structure Rejected (P : Id → Prop) (c c₁ : Collection T) (v : T) : Prop where
  store : c₁.store = c.store.set c.nextId v
  exprs : c₁.exprs = c.exprs
  holds : ∀ ix ∈ c₁.indexes, ix.expr.Holds P c.contents ix.state
  rejects : ∃ e ∈ c.exprs, e.Rejects c.contents (.add c.nextId v)

theorem rejected_add (hc : c.Consistent P) (hv : JsValue.Defined v) (hP : P c.nextId) (hf : c.contents c.nextId.bits = none)
    (ha : add v c = .thrown x c₁) : Rejected P c c₁ v := by
  have hn : c.Clash c.contents (.add c.nextId v) := by
    by_contra hn
    obtain ⟨c',hr,_⟩ := add_returned hc hv hP hf hn
    rw [hr] at ha
    cases ha
  obtain ⟨ix,hix,hcl⟩ := hn
  have hrej : ix.expr.Rejects c.contents (.add c.nextId v) := (ix.expr.clashes_add_iff _ _ _).mp hcl
  have hst := add_store v c
  have hex := add_exprs v c
  rw [ha] at hst hex
  refine ⟨hst,hex,?_,ix.expr,List.mem_map_of_mem hix,hrej⟩
  rw [add_apply] at ha
  have hp := Procedure.thrown_of_bind_pure ha
  obtain ⟨ixs',he⟩ := collectHooks_rejected ({ c with last := c.nextId, store := c.store.set c.nextId v } : Collection T).context
    hc.tracks (u := .add c.nextId v) hf hP ⟨ix,hix,hrej⟩
  simp only [propagateUpdate,he] at hp
  cases hp
  exact stopped_holds (u := .add c.nextId v) hc.tracks hf hP he

theorem Rejected.cleaned_contents (h : Rejected P c c₁ v) (hv : JsValue.Defined v) (hf : c.contents c.nextId.bits = none) :
    (delete c.nextId c₁).state.contents = c.contents := by
  rw [contents,delete_store (get_written c hv h.store),find_delete_eq,contents,h.store,find_set_eq,PartialMap.set_erase,
    PartialMap.erase_eq_self hf]

theorem Rejected.cleaned_rejects (h : Rejected P c c₁ v) :
    ∃ ix ∈ (delete c.nextId c₁).state.indexes, ix.expr.Rejects c.contents (.add c.nextId v) := by
  obtain ⟨e,he,hrej⟩ := h.rejects
  rw [← h.exprs,← delete_exprs c.nextId c₁] at he
  obtain ⟨ix,hix,rfl⟩ := List.mem_map.mp he
  exact ⟨ix,hix,hrej⟩

def HoldsUnlessRejects (P : Id → Prop) (S : Contents T) (id : Id) (v : T) (e : UnregisteredIndex T) (s : e.State) : Prop :=
  e.NoFold → ¬e.Rejects S (.add id v) → e.Holds P S s

omit [JsValue T] in
theorem survives_delete (ctx : IndexContext T) (hi : S id.bits = none) :
    Survives (HoldsUnlessRejects P S id v) ctx (.delete id v) := by
  intro e
  by_cases hg : e.NoFold ∧ ¬e.Rejects S (.add id v)
  · have hiff : HoldsUnlessRejects P S id v e = e.Holds P S := by
      funext s
      exact propext ⟨fun h => h hg.1 hg.2,fun h _ _ => h⟩
    rw [hiff]
    exact UnregisteredIndex.delete_untaken hg.1 ctx hi hg.2
  · have hany (s : e.State) : HoldsUnlessRejects P S id v e s := fun hn hr => absurd ⟨hn,hr⟩ hg
    exact .of_forall hany (fun _ => trivial) (fun _ => .of_forall hany (fun _ => trivial) (fun _ => trivial))

theorem cleaned_holds (hi : S id.bits = none) (hg : c₁.get id = some v) (h : ∀ ix ∈ c₁.indexes, ix.expr.Holds P S ix.state) :
    ∀ ix ∈ (delete id c₁).state.indexes, HoldsUnlessRejects P S id v ix.expr ix.state := by
  rw [delete_apply hg,Procedure.bind_pure_state]
  exact (survives_delete _ hi).propagateUpdate (fun ix hix _ _ => h ix hix)

def AnswersRight (c : Collection T) (e : UnregisteredIndex T) (s : e.State) : Prop :=
  ∀ {R : Type} (q : Query T e R), ∃ r, q.run c.context s = .ok r ∧ q.Means Id.Unsigned c.contents c.contents r

theorem answersRight_of_holds (hd : c.DefinedStore) {e : UnregisteredIndex T} {s : e.State} (hl : e.Lawful)
    (hh : e.Holds Id.Unsigned c.contents s) : c.AnswersRight e s := by
  have hs : ReadsFrom c.context c.contents := get_eq hd
  intro R q
  exact q.run_means hs hl hh

theorem cleaned_breaks (hg : c₁.get id = some v) {old : Option T} {c' : Collection T} (hr : delete id c₁ = .returned old c')
    {ix : RegisteredIndex T} (hix : ix ∈ c'.indexes) (hrej : ix.expr.Rejects c'.contents (.add id v)) :
    ¬c'.AnswersRight ix.expr ix.state := by
  rw [delete_apply hg] at hr
  obtain ⟨_,hp⟩ := Procedure.returned_of_bind_pure hr
  obtain ⟨ix₁,_,hrec⟩ := exists_sender (propagateUpdate_receives hp) hix
  unfold RegisteredIndex.receive at hrec
  split at hrec
  · rename_i s hd
    cases hrec
    obtain ⟨R,q,r,hq,hm⟩ := UnregisteredIndex.delete_of_rejected hrej hd Id.Unsigned c'.context c'.contents
    intro hright
    obtain ⟨r',hq',hm'⟩ := hright q
    obtain rfl : r = r' := Except.ok.inj (hq.symm.trans hq')
    exact hm hm'
  · cases hrec

-- An `add` that throws, caught, and the item then deleted under the id that the exception names.
theorem clean_up_heals_iff (h : Reached Call.exec Call.Ordinary new c) (hok : (Call.add v).Ordinary c)
    (ha : add v c = .thrown x c₁) :
    let c₂ := (delete c.nextId c₁).state
    c₂.contents = c.contents ∧
    (∀ ix ∈ c₂.indexes, ix.expr.NoFold → ¬ix.expr.Rejects c.contents (.add c.nextId v) →
      c₂.AnswersRight ix.expr ix.state) ∧
    ((delete c.nextId c₁).Returns → (∃ ix ∈ c₂.indexes, ¬c₂.AnswersRight ix.expr ix.state) ∧
      ∀ ix ∈ c₂.indexes, ix.expr.NoFold →
        (c₂.AnswersRight ix.expr ix.state ↔ ¬ix.expr.Rejects c.contents (.add c.nextId v))) := by
  intro c₂
  have hc := ordinary_consistent h
  have hcount := counter_of_visited h.visited
  have hf : c.contents c.nextId.bits = none := hcount.nextId_fresh hok.below
  have hrej := rejected_add hc hok.defined hcount.unsigned hf ha
  have hg : c₁.get c.nextId = some v := get_written c hok.defined hrej.store
  have hS : c₂.contents = c.contents := hrej.cleaned_contents hok.defined hf
  have hd : c₂.DefinedStore := by
    rw [DefinedStore,hS]
    exact hc.defined
  have hright : ∀ ix ∈ c₂.indexes, ix.expr.NoFold → ¬ix.expr.Rejects c.contents (.add c.nextId v) →
      c₂.AnswersRight ix.expr ix.state := by
    intro ix hix hn hr
    refine answersRight_of_holds hd hn.lawful ?_
    rw [hS]
    exact cleaned_holds hf hg hrej.holds ix hix hn hr
  refine ⟨hS,hright,?_⟩
  rintro ⟨old,c',hr⟩
  have hc₂ : c' = c₂ := (congrArg Outcome.state hr).symm
  have hwrong : ∀ ix ∈ c₂.indexes, ix.expr.Rejects c.contents (.add c.nextId v) → ¬c₂.AnswersRight ix.expr ix.state := by
    intro ix hix hr'
    rw [← hS] at hr'
    rw [hc₂] at hr
    exact cleaned_breaks hg hr hix hr'
  obtain ⟨ix,hix,hr'⟩ := hrej.cleaned_rejects
  refine ⟨⟨ix,hix,hwrong ix hix hr'⟩,?_⟩
  intro ix hix hn
  exact ⟨fun hans hr' => hwrong ix hix hr' hans,hright ix hix hn⟩

def beforeCollision : Collection ℕ := (Procedure.play Call.exec (collidedCalls.take 3) new).2

theorem beforeCollision_reached : Reached Call.exec Call.Ordinary new beforeCollision :=
  Procedure.reached_play _ .start (by decide)

theorem collision_cleaned_up : ∃ x c₁, add 11 beforeCollision = .thrown x c₁ ∧ (delete beforeCollision.nextId c₁).Returns ∧
    ∃ ix ∈ (delete beforeCollision.nextId c₁).state.indexes,
      ¬(delete beforeCollision.nextId c₁).state.AnswersRight ix.expr ix.state := by
  have ha : ∃ x c₁, add 11 beforeCollision = .thrown x c₁ := by
    cases hr : add 11 beforeCollision with
    | thrown x c₁ => exact ⟨x,c₁,rfl⟩
    | returned id c₁ =>
      have hn : ¬(add 11 beforeCollision).Returns := by decide
      exact absurd ⟨_,_,hr⟩ hn
  have hdel : (delete beforeCollision.nextId (add 11 beforeCollision).state).Returns := by decide
  obtain ⟨x,c₁,ha⟩ := ha
  rw [ha] at hdel
  exact ⟨x,c₁,ha,hdel,((clean_up_heals_iff beforeCollision_reached (by decide) ha).2.2 hdel).1⟩

end Collection

end ComposableIndexes
