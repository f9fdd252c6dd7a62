import ComposableIndexes.Abstract.Queries
import ComposableIndexes.Abstract.Sketch

namespace ComposableIndexes

variable {Out : Type} {σ : Equiv.Perm (BitVec 64)} {ctx ctx' : IndexContext Out}
  {R : List (Item Out) → List (Item Out) → Prop}

def Id.rename (σ : Equiv.Perm (BitVec 64)) (id : Id) : Id := ⟨⟨σ id.bits,id.asLong.unsigned⟩⟩

theorem Id.rename_injective (σ : Equiv.Perm (BitVec 64)) : Function.Injective (Id.rename σ) := by
  rintro ⟨⟨x,s⟩⟩ ⟨⟨y,t⟩⟩ h
  simp only [Id.rename,Id.bits,Id.mk.injEq,Long.mk.injEq,EmbeddingLike.apply_eq_iff_eq] at h
  rw [h.1,h.2]

-- Lists of items whose ids differ by `σ` and by their order are related by `R`.
def Renames (σ : Equiv.Perm (BitVec 64)) (ctx ctx' : IndexContext Out)
    (R : List (Item Out) → List (Item Out) → Prop) : Prop :=
  ∀ ids ids' : List Id, (ids.map (Id.rename σ)).Perm ids' → R (ids.map ctx.item) (ids'.map ctx'.item)

theorem IdSet.values_rename {set set' : IdSet} (h : set'.toSet = σ '' set.toSet) :
    (set.values.map (Id.rename σ)).Perm set'.values := by
  rw [List.perm_ext_iff_of_nodup (set.values_nodup.map (Id.rename_injective σ)) set'.values_nodup]
  intro id
  rw [List.mem_map,IdSet.mem_values,h]
  constructor
  · rintro ⟨id',hid',rfl⟩
    obtain ⟨hu,hi⟩ := (set.mem_values id').mp hid'
    exact ⟨hu,id'.bits,hi,rfl⟩
  · rintro ⟨hu,i,hi,he⟩
    refine ⟨Id.fromLong ⟨i,true⟩,(set.mem_values _).mpr ⟨rfl,hi⟩,?_⟩
    exact Id.eq_of_bits rfl hu he

def idsOf (set : Option IdSet) : List Id := set.elim [] IdSet.values

theorem items_eq_map (ctx : IndexContext Out) (set : Option IdSet) : HashIndex.items ctx set = (idsOf set).map ctx.item := by
  cases set <;> rfl

section Look

variable {K : Type} {look look' : K → Option IdSet}

def LookRenames (σ : Equiv.Perm (BitVec 64)) (look look' : K → Option IdSet) : Prop :=
  ∀ k, (look' k).map IdSet.toSet = ((look k).map IdSet.toSet).map (fun X => σ '' X)

theorem lookRenames_of_cover {V V' : BitVec 64 → Set K} (h : Cover V (fun k => (look k).map IdSet.toSet))
    (h' : Cover V' (fun k => (look' k).map IdSet.toSet)) (hV : ∀ i, V' (σ i) = V i) : LookRenames σ look look' :=
  fun k => congrFun (h'.unique (h.rename σ hV)) k

theorem LookRenames.ids (h : LookRenames σ look look') (k : K) :
    ((idsOf (look k)).map (Id.rename σ)).Perm (idsOf (look' k)) := by
  have hk := h k
  cases hl : look k with
  | none =>
    cases hl' : look' k with
    | none => exact .nil
    | some set => simp [hl,hl'] at hk
  | some set =>
    cases hl' : look' k with
    | none => simp [hl,hl'] at hk
    | some set' =>
      simp only [hl,hl',Option.map_some,Option.some.injEq] at hk
      exact IdSet.values_rename hk

theorem LookRenames.items (h : LookRenames σ look look') (hR : Renames σ ctx ctx' R) (k : K) :
    R (HashIndex.items ctx (look k)) (HashIndex.items ctx' (look' k)) := by
  rw [items_eq_map,items_eq_map]
  exact hR _ _ (h.ids k)

theorem LookRenames.isSome_eq (h : LookRenames σ look look') (k : K) : (look k).isSome = (look' k).isSome := by
  have hk := congrArg Option.isSome (h k)
  simpa using hk.symm

end Look

def SamePresence (r r' : Except (Exception Out) (Option (Item Out))) : Prop :=
  ∃ a b, r = .ok a ∧ r' = .ok b ∧ a.isSome = b.isSome

namespace BTreeIndex

variable {K : Type} [LinearOrder K] {lib : SortedBTree K IdSet} {t t' : lib.Tree}

structure BucketRenames (σ : Equiv.Perm (BitVec 64)) (p q : K × IdSet) : Prop where
  key : p.1 = q.1
  ids : q.2.toSet = σ '' p.2.toSet

theorem entries_rename (h : LookRenames σ (lib.get t) (lib.get t')) :
    List.Forall₂ (BucketRenames σ) (lib.entries t) (lib.entries t') := by
  have he := outline_of_look (fun X => σ '' X) h
  rw [outline,outline,List.map_map,← List.forall₂_eq_eq_eq,List.forall₂_map_left_iff,List.forall₂_map_right_iff] at he
  exact (he.imp (fun q p hqp => ⟨(congrArg Prod.fst hqp).symm,congrArg Prod.snd hqp⟩)).flip

theorem countDistinct_rename (h : LookRenames σ (lib.get t) (lib.get t')) :
    countDistinct lib t = countDistinct lib t' := by
  rw [countDistinct,countDistinct,lib.size_eq,lib.size_eq]
  exact (entries_rename h).length_eq

theorem minKey_rename (h : LookRenames σ (lib.get t) (lib.get t')) : lib.minKey t = lib.minKey t' := by
  rw [minKey_outline,minKey_outline,outline_of_look (fun X => σ '' X) h,List.head?_map,Option.map_map]
  rfl

theorem maxKey_rename (h : LookRenames σ (lib.get t) (lib.get t')) : lib.maxKey t = lib.maxKey t' := by
  rw [maxKey_outline,maxKey_outline,outline_of_look (fun X => σ '' X) h,List.getLast?_map,Option.map_map]
  rfl

theorem extremes_rename (h : LookRenames σ (lib.get t) (lib.get t')) (hR : Renames σ ctx ctx' R) (key : Option K) :
    R (extremes lib ctx t key) (extremes lib ctx' t' key) := by
  cases key with
  | none => exact hR [] [] .nil
  | some k => exact h.items hR k

theorem extreme1_rename (h : LookRenames σ (lib.get t) (lib.get t')) {key : Option K}
    (hkey : ∀ k, key = some k → ∃ set, lib.get t k = some set) :
    SamePresence (extreme1 lib ctx t key) (extreme1 lib ctx' t' key) := by
  cases key with
  | none => exact ⟨none,none,rfl,rfl,rfl⟩
  | some k =>
    obtain ⟨set,hset⟩ := hkey k rfl
    have hk := h.ids k
    have hsome := h.isSome_eq k
    rw [hset] at hk hsome
    obtain ⟨set',hset'⟩ := Option.isSome_iff_exists.mp hsome.symm
    rw [hset'] at hk
    simp only [extreme1,hset,hset']
    refine ⟨_,_,rfl,rfl,?_⟩
    have hl := hk.length_eq
    simp only [idsOf,Option.elim,List.length_map] at hl
    cases hv : set.values <;> cases hv' : set'.values <;> simp_all

theorem max_rename (h : LookRenames σ (lib.get t) (lib.get t')) (hR : Renames σ ctx ctx' R) :
    R (max lib ctx t) (max lib ctx' t') := by
  rw [max,max,maxKey_rename h]
  exact extremes_rename h hR _

theorem min_rename (h : LookRenames σ (lib.get t) (lib.get t')) (hR : Renames σ ctx ctx' R) :
    R (min lib ctx t) (min lib ctx' t') := by
  rw [min,min,minKey_rename h]
  exact extremes_rename h hR _

theorem max1_rename (h : LookRenames σ (lib.get t) (lib.get t')) :
    SamePresence (max1 lib ctx t) (max1 lib ctx' t') := by
  rw [max1,max1,← maxKey_rename h]
  exact extreme1_rename h (fun k => maxKey_stored)

theorem min1_rename (h : LookRenames σ (lib.get t) (lib.get t')) :
    SamePresence (min1 lib ctx t) (min1 lib ctx' t') := by
  rw [min1,min1,← minKey_rename h]
  exact extreme1_rename h (fun k => minKey_stored)

theorem range_rename (h : LookRenames σ (lib.get t) (lib.get t')) (hR : Renames σ ctx ctx' R) (lo hi : K)
    (limit : Option ℕ) : R (range lib ctx t lo hi limit) (range lib ctx' t' lo hi limit) := by
  let within (p : K × IdSet) : Bool := decide (lo ≤ p.1 ∧ p.1 ≤ hi)
  have hw : Relator.LiftFun (BucketRenames σ) Iff (fun p => within p = true) (fun p => within p = true) := by
    intro p q hpq
    simp only [within,hpq.key]
  have hf := List.rel_filter hw (entries_rename h)
  have hr : List.Forall₂ (BucketRenames σ) (lib.getRange t lo hi true limit) (lib.getRange t' lo hi true limit) := by
    rw [lib.getRange_eq,lib.getRange_eq]
    cases limit with
    | none => exact hf
    | some n => exact List.forall₂_take (lib.stop n) hf
  have hids : ((lib.getRange t lo hi true limit).flatMap (fun p => p.2.values.map (Id.rename σ))).Perm
      ((lib.getRange t' lo hi true limit).flatMap (fun p => p.2.values)) :=
    flatMap_perm_of_forall₂ (hr.imp (fun p q hpq => IdSet.values_rename hpq.ids))
  rw [← List.map_flatMap] at hids
  have hmap (ctx : IndexContext Out) (t : lib.Tree) : range lib ctx t lo hi limit =
      ((lib.getRange t lo hi true limit).flatMap (fun p => p.2.values)).map ctx.item := by
    rw [range,List.map_flatMap]
  rw [hmap,hmap]
  exact hR _ _ hids

end BTreeIndex

namespace GroupedIndex

variable {In G σ : Type} [DecidableEq G] {A : Account In σ} {ixs ixs' : State G σ} {g : G}

theorem has_of_mark (h : mark A ixs' g = mark A ixs g) : ixs.has g = ixs'.has g := by
  have hs := congrArg Option.isSome h
  rw [mark,mark,Option.isSome_map,Option.isSome_map] at hs
  exact hs.symm

theorem get_of_mark (h : mark A ixs' g = mark A ixs g) {st : σ} (hg : ixs.get g = some st) :
    ∃ st', ixs'.get g = some st' ∧ A.mark st' = A.mark st := by
  rw [mark_get hg,mark,Option.map_eq_some_iff] at h
  exact h

theorem absent_of_mark (h : mark A ixs' g = mark A ixs g) (hg : ixs.get g = none) : ixs'.get g = none := by
  rw [mark,mark,hg,Option.map_none,Option.map_eq_none_iff] at h
  exact h

end GroupedIndex

theorem UnregisteredAggregateIndex.value_rename {In Value : Type} (a : UnregisteredAggregateIndex In Value)
    (hl : a.Lawful) {V V' : BitVec 64 → a.account.ledger.Page} {s s' : a.State} (h : a.account.Shows V s)
    (h' : a.account.Shows V' s') (hV : ∀ i, V' (σ i) = V i) : a.value s = a.value s' := by
  induction a with
  | fold args =>
    have hs : s' = s := by
      rw [h' hl,h hl]
      exact congrArg (FoldIndex.total args hl) (tally_rename σ hV)
    rw [hs]
  | mapAggregate inner pre m ih => exact congrArg m (ih hl h h' hV)

namespace Query

def Same (R : List (Item Out) → List (Item Out) → Prop) (ctx ctx' : IndexContext Out) : {In Ret : Type} →
    {e : UnregisteredIndex In} → Query Out e Ret → e.State → e.State → Prop
  | _, _, _, @hashEq _ _ _ key, s, s' => R (HashIndex.eq ctx s key) (HashIndex.eq ctx' s' key)
  | _, _, _, @hashCountDistinct _ _ _, s, s' => HashIndex.countDistinct s = HashIndex.countDistinct s'
  | _, _, _, @btreeEq _ _ _ _ lib key, s, s' => R (BTreeIndex.eq lib ctx s key) (BTreeIndex.eq lib ctx' s' key)
  | _, _, _, @btreeCountDistinct _ _ _ _ lib, s, s' => BTreeIndex.countDistinct lib s = BTreeIndex.countDistinct lib s'
  | _, _, _, @btreeMax _ _ _ _ lib, s, s' => R (BTreeIndex.max lib ctx s) (BTreeIndex.max lib ctx' s')
  | _, _, _, @btreeMin _ _ _ _ lib, s, s' => R (BTreeIndex.min lib ctx s) (BTreeIndex.min lib ctx' s')
  | _, _, _, @btreeMax1 _ _ _ _ lib, s, s' => SamePresence (BTreeIndex.max1 lib ctx s) (BTreeIndex.max1 lib ctx' s')
  | _, _, _, @btreeMin1 _ _ _ _ lib, s, s' => SamePresence (BTreeIndex.min1 lib ctx s) (BTreeIndex.min1 lib ctx' s')
  | _, _, _, @btreeRange _ _ _ _ lib minValue maxValue limit, s, s' =>
      R (BTreeIndex.range lib ctx s minValue maxValue limit) (BTreeIndex.range lib ctx' s' minValue maxValue limit)
  | _, _, _, @uniqueEq _ _ _ key, s, s' =>
      R (UniqueHashIndex.eq ctx s key).toList (UniqueHashIndex.eq ctx' s' key).toList
  | _, _, _, @uniqueCountDistinct _ _ _, s, s' => UniqueHashIndex.countDistinct s = UniqueHashIndex.countDistinct s'
  | _, _, _, @value _ _ _ a, s, s' => a.value s = a.value s'
  | _, _, _, .premapGet q, s, s' => Same R ctx ctx' q s s'
  | _, _, _, @groupHas _ _ _ _ _ _ _ g, s, s' => OrderedMap.has s g = OrderedMap.has s' g
  | _, _, _, @groupGet _ _ _ _ _ _ _ _ g q, s, s' =>
      (∀ st, OrderedMap.get s g = some st → ∃ st', OrderedMap.get s' g = some st' ∧ Same R ctx ctx' q st st') ∧
      (OrderedMap.get s g = none → OrderedMap.get s' g = none)
  | _, _, _, .zipHead q, s, s' => Same R ctx ctx' q s.1 s'.1
  | _, _, _, .zipTail q, s, s' => Same R ctx ctx' q s.2 s'.2

theorem same_of_account (hR : Renames σ ctx ctx' R) {In Ret : Type} {e : UnregisteredIndex In} (q : Query Out e Ret)
    (hn : e.NoUnique) (hl : e.Lawful) {V V' : BitVec 64 → e.account.ledger.Page} {s s' : e.State}
    (h : e.account.Shows V s) (h' : e.account.Shows V' s') (hV : ∀ i, V' (σ i) = V i)
    (hm : e.account.mark s' = e.account.mark s) : q.Same R ctx ctx' s s' := by
  induction q with
  | hashEq key => exact (lookRenames_of_cover h h' hV).items hR key
  | hashCountDistinct => exact OrderedMap.size_eq_of_isSome_eq (fun k => (lookRenames_of_cover h h' hV).isSome_eq k)
  | btreeEq key => exact (lookRenames_of_cover h h' hV).items hR key
  | btreeCountDistinct => exact BTreeIndex.countDistinct_rename (lookRenames_of_cover h h' hV)
  | btreeMax => exact BTreeIndex.max_rename (lookRenames_of_cover h h' hV) hR
  | btreeMin => exact BTreeIndex.min_rename (lookRenames_of_cover h h' hV) hR
  | btreeMax1 => exact BTreeIndex.max1_rename (lookRenames_of_cover h h' hV)
  | btreeMin1 => exact BTreeIndex.min1_rename (lookRenames_of_cover h h' hV)
  | btreeRange lo hi limit => exact BTreeIndex.range_rename (lookRenames_of_cover h h' hV) hR lo hi limit
  | uniqueEq key => exact hn.elim
  | uniqueCountDistinct => exact hn.elim
  | @value In Value a => exact a.value_rename hl h h' hV
  | premapGet q ih => exact ih hn hl h h' hV hm
  | groupHas g => exact GroupedIndex.has_of_mark (congrFun hm g)
  | groupGet g q ih =>
    refine ⟨?_,GroupedIndex.absent_of_mark (congrFun hm g)⟩
    intro st hst
    obtain ⟨st',hst',hmark⟩ := GroupedIndex.get_of_mark (congrFun hm g) hst
    exact ⟨st',hst',ih hn hl (h.inner g st hst) (h'.inner g st' hst') (fun i => congrFun (hV i) g) hmark⟩
  | zipHead q ih => exact ih hn.1 hl.1 h.1 h'.1 (fun i => congrArg Prod.fst (hV i)) (congrArg Prod.fst hm)
  | zipTail q ih => exact ih hn.2 hl.2 h.2 h'.2 (fun i => congrArg Prod.snd (hV i)) (congrArg Prod.snd hm)

end Query

inductive RegisteredIndex.AgreesUpTo {T : Type} (R : List (Item T) → List (Item T) → Prop) (ctx ctx' : IndexContext T) :
    RegisteredIndex T → RegisteredIndex T → Prop where
  | mk {e : UnregisteredIndex T} {s s' : e.State} {log log' : List (Update T)}
      (h : ∀ {Ret : Type} (q : Query T e Ret), q.Same R ctx ctx' s s') : AgreesUpTo R ctx ctx' ⟨e,s,log⟩ ⟨e,s',log'⟩

theorem Sketch.Depicts.agreesUpTo {e : UnregisteredIndex Out} {V V' : BitVec 64 → e.account.ledger.Page}
    {m : e.account.trail.Mark} {ix ix' : RegisteredIndex Out} (h : Depicts ⟨e,V,m⟩ ix) (h' : Depicts ⟨e,V',m⟩ ix')
    (hn : e.NoUnique) (hl : e.Lawful) (hR : Renames σ ctx ctx' R) (hV : ∀ i, V' (σ i) = V i) :
    RegisteredIndex.AgreesUpTo R ctx ctx' ix ix' := by
  obtain ⟨s,log,rfl,hs,hm⟩ := h.inv
  obtain ⟨s',log',rfl,hs',hm'⟩ := h'.inv
  exact .mk (fun q => q.same_of_account hR hn hl hs hs' hV (hm'.trans hm.symm))

theorem Collection.context_get [JsValue Out] (c : Collection Out) (id : Id) :
    c.context.get id = (c.contents id.bits).bind JsValue.orUndefined := IdMap.find_eq_get c.store id

end ComposableIndexes
