import ComposableIndexes.Abstract.Expression
import Mathlib.Data.List.Forall2

namespace ComposableIndexes

variable {Out : Type}

theorem flatMap_perm_of_forall₂ {α β γ : Type} {f : α → List γ} {g : β → List γ} {xs : List α} {ys : List β}
    (h : List.Forall₂ (fun a b => (f a).Perm (g b)) xs ys) : (xs.flatMap f).Perm (ys.flatMap g) := by
  induction h with
  | nil => exact .nil
  | cons hab _ ih => simpa using hab.append ih

section Items

variable {S : Contents Out} {ctx ctx' : IndexContext Out} {s s' : Option IdSet}

def SameOn {A : Type} (S : Contents A) (ctx ctx' : IndexContext Out) : Prop :=
  ∀ id : Id, (S id.bits).isSome = true → ctx.get id = ctx'.get id

def DefinedOn {A : Type} (S : Contents A) (ctx : IndexContext Out) : Prop :=
  ∀ id : Id, (S id.bits).isSome = true → (ctx.get id).isSome = true

theorem SameOn.filterMap {A B : Type} {S : Contents A} (h : SameOn S ctx ctx') (f : A → Option B) :
    SameOn (S.filterMap f) ctx ctx' :=
  fun id hid => h id (PartialMap.isSome_of_filterMap hid)

theorem DefinedOn.filterMap {A B : Type} {S : Contents A} (h : DefinedOn S ctx) (f : A → Option B) :
    DefinedOn (S.filterMap f) ctx :=
  fun id hid => h id (PartialMap.isSome_of_filterMap hid)

theorem values_map_perm {A : Type} {S : Contents A} (hc : SameOn S ctx ctx') {set set' : IdSet}
    (he : set.toSet = set'.toSet) (hmem : ∀ i ∈ set.toSet, (S i).isSome = true) :
    (set.values.map ctx.item).Perm (set'.values.map ctx'.item) := by
  have hsame : set'.values.map ctx'.item = set'.values.map ctx.item := by
    apply List.map_congr_left
    intro id hid
    rw [IdSet.mem_values,← he] at hid
    simp [IndexContext.item,hc id (hmem id.bits hid.2)]
  rw [hsame]
  exact (IdSet.values_perm he).map _

end Items

section Buckets

variable {K : Type} {S : Contents K} {ctx ctx' : IndexContext Out} {look : K → Option IdSet}

theorem bucket_stored (h : Buckets S (fun k => (look k).map IdSet.toSet)) {k : K} {set : IdSet}
    (hk : look k = some set) : ∀ i ∈ set.toSet, (S i).isSome = true := by
  intro i hi
  have := (h.mem_bucket (k := k) (X := set.toSet) (by simp [hk]) i).mp hi
  simp [this]

theorem items_perm {look' : K → Option IdSet} (h : Buckets S (fun k => (look k).map IdSet.toSet))
    (h' : Buckets S (fun k => (look' k).map IdSet.toSet)) (hc : SameOn S ctx ctx') (k : K) :
    (HashIndex.items ctx (look k)).Perm (HashIndex.items ctx' (look' k)) := by
  have he := congrFun (h.unique h') k
  cases hk : look k with
  | none =>
    cases hk' : look' k with
    | none => exact .nil
    | some set => simp [hk,hk'] at he
  | some set =>
    cases hk' : look' k with
    | none => simp [hk,hk'] at he
    | some set' =>
      simp only [hk,hk',Option.map_some,Option.some.injEq] at he
      exact values_map_perm hc he (bucket_stored h hk)

theorem items_defined (h : Buckets S (fun k => (look k).map IdSet.toSet)) (hc : DefinedOn S ctx) (k : K) :
    ∀ it ∈ HashIndex.items ctx (look k), it.value.isSome = true := by
  cases hk : look k with
  | none => simp [HashIndex.items]
  | some set =>
    simp only [HashIndex.items,List.mem_map]
    rintro _ ⟨id,hid,rfl⟩
    exact hc id (bucket_stored h hk id.bits ((set.mem_values id).mp hid).2)

end Buckets

namespace BTreeIndex

variable {K : Type} [LinearOrder K] [JsKey K] {lib : SortedBTree K IdSet} {S : Contents K} {t t' : lib.Tree}
  {ctx ctx' : IndexContext Out}

def outline (lib : SortedBTree K IdSet) (t : lib.Tree) : List (K × Set (BitVec 64)) :=
  (lib.entries t).map (fun p => (p.1,p.2.toSet))

omit [JsKey K] in
theorem mem_outline (k : K) (X : Set (BitVec 64)) :
    (k,X) ∈ outline lib t ↔ (lib.get t k).map IdSet.toSet = some X := by
  simp only [outline,List.mem_map,Prod.exists,Prod.mk.injEq,lib.mem_entries,Option.map_eq_some_iff]
  constructor
  · rintro ⟨a,b,hab,rfl,rfl⟩
    exact ⟨b,hab,rfl⟩
  · rintro ⟨b,hb,rfl⟩
    exact ⟨k,b,hb,rfl,rfl⟩

omit [JsKey K] in
theorem outline_ascending (t : lib.Tree) : (outline lib t).Pairwise (fun p q => p.1 < q.1) := by
  rw [outline,List.pairwise_map]
  exact lib.ascending t

omit [JsKey K] in
theorem outline_of_look (F : Set (BitVec 64) → Set (BitVec 64))
    (h : ∀ k, (lib.get t' k).map IdSet.toSet = ((lib.get t k).map IdSet.toSet).map F) :
    outline lib t' = (outline lib t).map (fun p => (p.1,F p.2)) := by
  have : Std.Antisymm (fun p q : K × Set (BitVec 64) => p.1 < q.1) := ⟨fun p q hp hq => absurd hp hq.asymm⟩
  have : Std.Irrefl (fun p q : K × Set (BitVec 64) => p.1 < q.1) := ⟨fun p => lt_irrefl p.1⟩
  have hasc : ((outline lib t).map (fun p => (p.1,F p.2))).Pairwise (fun p q => p.1 < q.1) :=
    List.pairwise_map.mpr (outline_ascending t)
  apply (outline_ascending t').eq_of_mem_iff hasc
  rintro ⟨k,X⟩
  rw [mem_outline,h,Option.map_eq_some_iff]
  simp only [List.mem_map,Prod.exists,Prod.mk.injEq,mem_outline]
  constructor
  · rintro ⟨Y,hY,rfl⟩
    exact ⟨k,Y,hY,rfl,rfl⟩
  · rintro ⟨_,Y,hY,rfl,rfl⟩
    exact ⟨Y,hY,rfl⟩

omit [JsKey K] in
theorem outline_eq (h : Holds lib S t) (h' : Holds lib S t') : outline lib t = outline lib t' := by
  have hlook (k : K) : (lib.get t' k).map IdSet.toSet = ((lib.get t k).map IdSet.toSet).map id := by
    rw [Option.map_id]
    exact congrFun (h'.unique h) k
  rw [outline_of_look id hlook]
  exact (List.map_id _).symm

structure SameBucket (S : Contents K) (p q : K × IdSet) : Prop where
  key : p.1 = q.1
  ids : p.2.toSet = q.2.toSet
  stored : ∀ i ∈ p.2.toSet, (S i).isSome = true

omit [JsKey K] in
theorem entries_forall₂ (h : Holds lib S t) (h' : Holds lib S t') :
    List.Forall₂ (SameBucket S) (lib.entries t) (lib.entries t') := by
  have he := outline_eq h h'
  rw [outline,outline,← List.forall₂_eq_eq_eq,List.forall₂_map_left_iff,List.forall₂_map_right_iff] at he
  have hmem : ∀ p ∈ lib.entries t, ∀ i ∈ p.2.toSet, (S i).isSome = true :=
    fun p hp => bucket_stored h ((lib.mem_entries t p.1 p.2).mp hp)
  clear h h'
  generalize lib.entries t = l at he hmem
  generalize lib.entries t' = l' at he
  induction he with
  | nil => exact .nil
  | @cons p q l l' hpq _ ih =>
    simp only [Prod.mk.injEq] at hpq
    exact .cons ⟨hpq.1,hpq.2,hmem p (by simp)⟩ (ih (fun r hr => hmem r (by simp [hr])))

omit [JsKey K] in
theorem countDistinct_eq (h : Holds lib S t) (h' : Holds lib S t') :
    countDistinct lib t = countDistinct lib t' := by
  rw [countDistinct,countDistinct,lib.size_eq,lib.size_eq]
  exact (entries_forall₂ h h').length_eq

omit [JsKey K] in
theorem minKey_outline (t : lib.Tree) : lib.minKey t = (outline lib t).head?.map Prod.fst := by
  rw [lib.minKey_eq,outline,List.head?_map,Option.map_map]
  rfl

omit [JsKey K] in
theorem maxKey_outline (t : lib.Tree) : lib.maxKey t = (outline lib t).getLast?.map Prod.fst := by
  rw [lib.maxKey_eq,outline,List.getLast?_map,Option.map_map]
  rfl

omit [JsKey K] in
theorem minKey_eq (h : Holds lib S t) (h' : Holds lib S t') : lib.minKey t = lib.minKey t' := by
  rw [minKey_outline,minKey_outline,outline_eq h h']

omit [JsKey K] in
theorem maxKey_eq (h : Holds lib S t) (h' : Holds lib S t') : lib.maxKey t = lib.maxKey t' := by
  rw [maxKey_outline,maxKey_outline,outline_eq h h']

omit [JsKey K] in
theorem range_perm (h : Holds lib S t) (h' : Holds lib S t') (hc : SameOn S ctx ctx') (lo hi : K)
    (limit : Option ℕ) : (range lib ctx t lo hi limit).Perm (range lib ctx' t' lo hi limit) := by
  let within (p : K × IdSet) : Bool := decide (lo ≤ p.1 ∧ p.1 ≤ hi)
  have hw : Relator.LiftFun (SameBucket S) Iff (fun p => within p = true) (fun p => within p = true) := by
    intro p q hpq
    simp only [within,hpq.key]
  have hf := List.rel_filter hw (entries_forall₂ h h')
  have hr : List.Forall₂ (SameBucket S) (lib.getRange t lo hi true limit) (lib.getRange t' lo hi true limit) := by
    rw [lib.getRange_eq,lib.getRange_eq]
    cases limit with
    | none => exact hf
    | some n => exact List.forall₂_take (lib.stop n) hf
  exact flatMap_perm_of_forall₂ (hr.imp (fun p q hpq => values_map_perm hc hpq.ids hpq.stored))

omit [JsKey K] in
theorem maxKey_stored {k : K} (hk : lib.maxKey t = some k) : ∃ set, lib.get t k = some set := by
  rw [lib.maxKey_eq,Option.map_eq_some_iff] at hk
  obtain ⟨⟨a,b⟩,hp,rfl⟩ := hk
  exact ⟨b,(lib.mem_entries t a b).mp (List.mem_of_getLast? hp)⟩

omit [JsKey K] in
theorem minKey_stored {k : K} (hk : lib.minKey t = some k) : ∃ set, lib.get t k = some set := by
  rw [lib.minKey_eq,Option.map_eq_some_iff] at hk
  obtain ⟨⟨a,b⟩,hp,rfl⟩ := hk
  exact ⟨b,(lib.mem_entries t a b).mp (List.mem_of_head? hp)⟩

omit [JsKey K] in
theorem extreme1_spec (ctx : IndexContext Out) {key : Option K}
    (hkey : ∀ k, key = some k → ∃ set, lib.get t k = some set) :
    ∃ r, extreme1 lib ctx t key = .ok r ∧ (r = none ↔ extremes lib ctx t key = []) ∧
      ∀ it, r = some it → it ∈ extremes lib ctx t key := by
  cases key with
  | none => exact ⟨none,rfl,by simp [extremes],by simp⟩
  | some k =>
    obtain ⟨set,hset⟩ := hkey k rfl
    simp only [extreme1,extremes,hset,HashIndex.items]
    refine ⟨_,rfl,?_,?_⟩
    · cases set.values <;> simp
    · intro it hit
      cases hv : set.values with
      | nil => simp [hv] at hit
      | cons id ids =>
        simp only [hv,List.head?_cons,Option.map_some,Option.some.injEq] at hit
        simp [← hit]

end BTreeIndex

namespace GroupedIndex

variable {In G σ : Type} [DecidableEq G] {P : Id → Prop} {holds : Contents In → σ → Prop}
  {rejects defers : Contents In → Update In → Prop} {inner : Index In Out σ} {f : In → G}
  {S : Contents In} {ixs : State G σ}

theorem holds_getD (hin : Refines holds rejects defers P inner) (h : Holds f holds S ixs) (g : G) :
    holds (S.filterMap (part f g)) ((ixs.get g).getD inner.create) := by
  cases hg : ixs.get g with
  | none =>
    rw [part_empty h hg]
    exact hin.create
  | some st => exact h.inner g st hg

end GroupedIndex

theorem UnregisteredAggregateIndex.value_eq {In Value : Type} (a : UnregisteredAggregateIndex In Value)
    (hl : a.Lawful) {S : Contents In} {s s' : a.State} (h : a.Holds S s) (h' : a.Holds S s') :
    a.value s = a.value s' := by
  induction a with
  | fold args => exact congrArg args.result ((h hl).trans (h' hl).symm)
  | mapAggregate inner pre m ih => exact congrArg m (ih hl h h')

def SameExtreme (r : Except (Exception Out) (Option (Item Out))) (tied : List (Item Out))
    (r' : Except (Exception Out) (Option (Item Out))) (tied' : List (Item Out)) : Prop :=
  ∃ a b, r = .ok a ∧ r' = .ok b ∧ (a = none ↔ b = none) ∧ (∀ it, a = some it → it ∈ tied') ∧
    ∀ it, b = some it → it ∈ tied

theorem BTreeIndex.extreme1_same {K : Type} [LinearOrder K] {lib : SortedBTree K IdSet} {t t' : lib.Tree}
    {ctx ctx' : IndexContext Out} {key : Option K} (hkey : ∀ k, key = some k → ∃ set, lib.get t k = some set)
    (hkey' : ∀ k, key = some k → ∃ set, lib.get t' k = some set)
    (hp : (extremes lib ctx t key).Perm (extremes lib ctx' t' key)) :
    SameExtreme (extreme1 lib ctx t key) (extremes lib ctx t key) (extreme1 lib ctx' t' key)
      (extremes lib ctx' t' key) := by
  obtain ⟨a,ha,hna,hma⟩ := extreme1_spec ctx hkey
  obtain ⟨b,hb,hnb,hmb⟩ := extreme1_spec ctx' hkey'
  refine ⟨a,b,ha,hb,?_,fun it hit => hp.mem_iff.mp (hma it hit),fun it hit => hp.mem_iff.mpr (hmb it hit)⟩
  rw [hna,hnb]
  constructor
  · intro he
    rw [he] at hp
    exact hp.nil_eq.symm
  · intro he
    rw [he] at hp
    exact hp.eq_nil

namespace BTreeIndex

variable {K : Type} [LinearOrder K] {lib : SortedBTree K IdSet} {S : Contents K} {t t' : lib.Tree}
  {ctx ctx' : IndexContext Out}

theorem extremes_perm (h : Holds lib S t) (h' : Holds lib S t') (hc : SameOn S ctx ctx') (key : Option K) :
    (extremes lib ctx t key).Perm (extremes lib ctx' t' key) := by
  cases key with
  | none => exact .nil
  | some k => exact items_perm h h' hc k

theorem max_perm (h : Holds lib S t) (h' : Holds lib S t') (hc : SameOn S ctx ctx') :
    (max lib ctx t).Perm (max lib ctx' t') := by
  rw [max,max,maxKey_eq h h']
  exact extremes_perm h h' hc _

theorem min_perm (h : Holds lib S t) (h' : Holds lib S t') (hc : SameOn S ctx ctx') :
    (min lib ctx t).Perm (min lib ctx' t') := by
  rw [min,min,minKey_eq h h']
  exact extremes_perm h h' hc _

theorem max1_same (h : Holds lib S t) (h' : Holds lib S t') (hc : SameOn S ctx ctx') :
    SameExtreme (max1 lib ctx t) (max lib ctx t) (max1 lib ctx' t') (max lib ctx' t') := by
  rw [max,max,max1,max1,maxKey_eq h h']
  exact extreme1_same (fun k hk => maxKey_stored ((maxKey_eq h h').trans hk)) (fun k => maxKey_stored)
    (extremes_perm h h' hc _)

theorem min1_same (h : Holds lib S t) (h' : Holds lib S t') (hc : SameOn S ctx ctx') :
    SameExtreme (min1 lib ctx t) (min lib ctx t) (min1 lib ctx' t') (min lib ctx' t') := by
  rw [min,min,min1,min1,minKey_eq h h']
  exact extreme1_same (fun k hk => minKey_stored ((minKey_eq h h').trans hk)) (fun k => minKey_stored)
    (extremes_perm h h' hc _)

theorem extremes_defined (h : Holds lib S t) (hc : DefinedOn S ctx) (key : Option K) :
    ∀ it ∈ extremes lib ctx t key, it.value.isSome = true := by
  cases key with
  | none => simp [extremes]
  | some k => exact items_defined h hc k

theorem extreme1_defined (h : Holds lib S t) (hc : DefinedOn S ctx) {key : Option K}
    (hkey : ∀ k, key = some k → ∃ set, lib.get t k = some set) :
    ∃ r, extreme1 lib ctx t key = .ok r ∧ ∀ it ∈ r.toList, it.value.isSome = true := by
  obtain ⟨r,hr,_,hmem⟩ := extreme1_spec ctx hkey
  refine ⟨r,hr,?_⟩
  intro it hit
  exact extremes_defined h hc key it (hmem it (Option.mem_toList.mp hit))

theorem getRange_sub (t : lib.Tree) (lo hi : K) (limit : Option ℕ) :
    ∀ p ∈ lib.getRange t lo hi true limit, p ∈ lib.entries t := by
  intro p hp
  rw [lib.getRange_eq] at hp
  cases limit with
  | none => exact (List.mem_filter.mp hp).1
  | some n => exact (List.mem_filter.mp (List.mem_of_mem_take hp)).1

theorem range_defined (h : Holds lib S t) (hc : DefinedOn S ctx) (lo hi : K) (limit : Option ℕ) :
    ∀ it ∈ range lib ctx t lo hi limit, it.value.isSome = true := by
  simp only [range,List.mem_flatMap]
  rintro it ⟨⟨k,set⟩,hp,hit⟩
  have hk := (lib.mem_entries t k set).mp (getRange_sub t lo hi limit _ hp)
  have hd := items_defined h hc k
  rw [hk] at hd
  exact hd it hit

end BTreeIndex

namespace UniqueHashIndex

variable {K : Type} [DecidableEq K] {S : Contents K} {ix ix' : State K} {ctx ctx' : IndexContext Out}

theorem get_eq (h : Holds Id.Unsigned S ix) (h' : Holds Id.Unsigned S ix') (k : K) : ix.get k = ix'.get k := by
  ext id
  have sub {ix ix' : State K} (h : Holds Id.Unsigned S ix) (h' : Holds Id.Unsigned S ix')
      (hg : ix.get k = some id) : ix'.get k = some id := by
    obtain ⟨id',hg',hb⟩ := (h'.holder k id.bits).mpr (h.stored hg)
    rw [hg',Id.eq_of_bits (h'.ids k id' hg') (h.ids k id hg) hb]
  exact ⟨sub h h',sub h' h⟩

theorem eq_eq (h : Holds Id.Unsigned S ix) (h' : Holds Id.Unsigned S ix') (hc : SameOn S ctx ctx') (k : K) :
    eq ctx ix k = eq ctx' ix' k := by
  rw [eq,eq,← get_eq h h' k]
  cases hg : ix.get k with
  | none => rfl
  | some id =>
    simp [IndexContext.item,hc id (by simp [h.stored hg])]

theorem eq_defined {P : Id → Prop} (h : Holds P S ix) (hc : DefinedOn S ctx) (k : K) :
    ∀ it ∈ (eq ctx ix k).toList, it.value.isSome = true := by
  intro it hit
  rw [eq,Option.mem_toList,Option.map_eq_some_iff] at hit
  obtain ⟨id,hid,rfl⟩ := hit
  exact hc id (by simp [h.stored hid])

end UniqueHashIndex

namespace Query

-- Equal answers up to the order of the items in a list and the choice among tied items, an absent
-- group being taken for an empty one.
def Agree (ctx ctx' : IndexContext Out) : {In R : Type} → {e : UnregisteredIndex In} → Query Out e R →
    e.State → e.State → Prop
  | _, _, _, @hashEq _ _ _ key, s, s' => (HashIndex.eq ctx s key).Perm (HashIndex.eq ctx' s' key)
  | _, _, _, @hashCountDistinct _ _ _, s, s' => HashIndex.countDistinct s = HashIndex.countDistinct s'
  | _, _, _, @btreeEq _ _ _ _ lib key, s, s' => (BTreeIndex.eq lib ctx s key).Perm (BTreeIndex.eq lib ctx' s' key)
  | _, _, _, @btreeCountDistinct _ _ _ _ lib, s, s' => BTreeIndex.countDistinct lib s = BTreeIndex.countDistinct lib s'
  | _, _, _, @btreeMax _ _ _ _ lib, s, s' => (BTreeIndex.max lib ctx s).Perm (BTreeIndex.max lib ctx' s')
  | _, _, _, @btreeMin _ _ _ _ lib, s, s' => (BTreeIndex.min lib ctx s).Perm (BTreeIndex.min lib ctx' s')
  | _, _, _, @btreeMax1 _ _ _ _ lib, s, s' => SameExtreme (BTreeIndex.max1 lib ctx s) (BTreeIndex.max lib ctx s)
      (BTreeIndex.max1 lib ctx' s') (BTreeIndex.max lib ctx' s')
  | _, _, _, @btreeMin1 _ _ _ _ lib, s, s' => SameExtreme (BTreeIndex.min1 lib ctx s) (BTreeIndex.min lib ctx s)
      (BTreeIndex.min1 lib ctx' s') (BTreeIndex.min lib ctx' s')
  | _, _, _, @btreeRange _ _ _ _ lib minValue maxValue limit, s, s' =>
      (BTreeIndex.range lib ctx s minValue maxValue limit).Perm (BTreeIndex.range lib ctx' s' minValue maxValue limit)
  | _, _, _, @uniqueEq _ _ _ key, s, s' => UniqueHashIndex.eq ctx s key = UniqueHashIndex.eq ctx' s' key
  | _, _, _, @uniqueCountDistinct _ _ _, s, s' => UniqueHashIndex.countDistinct s = UniqueHashIndex.countDistinct s'
  | _, _, _, @value _ _ _ a, s, s' => a.value s = a.value s'
  | _, _, _, .premapGet q, s, s' => Agree ctx ctx' q s s'
  | _, _, _, @groupHas _ _ _ _ _ _ _ _, _, _ => True
  | _, _, _, @groupGet _ _ _ _ _ _ _ inner g q, s, s' =>
      Agree ctx ctx' q ((OrderedMap.get s g).getD (inner.index Out).create)
        ((OrderedMap.get s' g).getD (inner.index Out).create)
  | _, _, _, .zipHead q, s, s' => Agree ctx ctx' q s.1 s'.1
  | _, _, _, .zipTail q, s, s' => Agree ctx ctx' q s.2 s'.2

theorem agree_of_holds {ctx ctx' : IndexContext Out} {In R : Type} {e : UnregisteredIndex In} (q : Query Out e R)
    {S : Contents In} {s s' : e.State} (hl : e.Lawful) (h : e.Holds Id.Unsigned S s)
    (h' : e.Holds Id.Unsigned S s') (hc : SameOn S ctx ctx') : q.Agree ctx ctx' s s' := by
  induction q with
  | hashEq key => exact items_perm h h' hc key
  | hashCountDistinct =>
    apply OrderedMap.size_eq_of_isSome_eq
    intro k
    have he := congrArg Option.isSome (congrFun (h.unique h') k)
    simpa using he
  | btreeEq key => exact items_perm h h' hc key
  | btreeCountDistinct => exact BTreeIndex.countDistinct_eq h h'
  | btreeMax => exact BTreeIndex.max_perm h h' hc
  | btreeMin => exact BTreeIndex.min_perm h h' hc
  | btreeMax1 => exact BTreeIndex.max1_same h h' hc
  | btreeMin1 => exact BTreeIndex.min1_same h h' hc
  | btreeRange lo hi limit => exact BTreeIndex.range_perm h h' hc lo hi limit
  | uniqueEq key => exact UniqueHashIndex.eq_eq h h' hc key
  | uniqueCountDistinct =>
    apply OrderedMap.size_eq_of_isSome_eq
    intro k
    rw [UniqueHashIndex.get_eq h h' k]
  | @value In Value a => exact a.value_eq hl h h'
  | premapGet q ih => exact ih hl h h' (hc.filterMap _)
  | groupHas g => trivial
  | @groupGet In G R _ _ f inner g q ih =>
    have hin := inner.refines Out Id.Unsigned
    exact ih hl (GroupedIndex.holds_getD hin h g) (GroupedIndex.holds_getD hin h' g) (hc.filterMap _)
  | zipHead q ih => exact ih hl.1 h.1 h'.1 hc
  | zipTail q ih => exact ih hl.2 h.2 h'.2 hc

theorem run_defined {ctx : IndexContext Out} {In R : Type} {e : UnregisteredIndex In} (q : Query Out e R)
    {P : Id → Prop} {S : Contents In} {s : e.State} (h : e.Holds P S s) (hc : DefinedOn S ctx) :
    ∃ r, q.run ctx s = .ok r ∧ ∀ it ∈ q.items r, it.value.isSome = true := by
  induction q with
  | hashEq key => exact ⟨_,rfl,items_defined h hc key⟩
  | hashCountDistinct => exact ⟨_,rfl,by simp [items]⟩
  | btreeEq key => exact ⟨_,rfl,items_defined h hc key⟩
  | btreeCountDistinct => exact ⟨_,rfl,by simp [items]⟩
  | btreeMax => exact ⟨_,rfl,BTreeIndex.extremes_defined h hc _⟩
  | btreeMin => exact ⟨_,rfl,BTreeIndex.extremes_defined h hc _⟩
  | btreeMax1 => exact BTreeIndex.extreme1_defined h hc (fun k => BTreeIndex.maxKey_stored)
  | btreeMin1 => exact BTreeIndex.extreme1_defined h hc (fun k => BTreeIndex.minKey_stored)
  | btreeRange lo hi limit => exact ⟨_,rfl,BTreeIndex.range_defined h hc lo hi limit⟩
  | uniqueEq key => exact ⟨_,rfl,UniqueHashIndex.eq_defined h hc key⟩
  | uniqueCountDistinct => exact ⟨_,rfl,by simp [items]⟩
  | value => exact ⟨_,rfl,by simp [items]⟩
  | premapGet q ih => exact ih h (hc.filterMap _)
  | groupHas g => exact ⟨_,rfl,by simp [items]⟩
  | @groupGet In G R _ _ f inner g q ih =>
    simp only [run,items]
    cases hg : OrderedMap.get s g with
    | none => exact ⟨none,rfl,by simp⟩
    | some st =>
      obtain ⟨r,hr,hd⟩ := ih (h.inner g st hg) (hc.filterMap _)
      exact ⟨some r,by simp [hr,Except.map],hd⟩
  | zipHead q ih => exact ih h.1 hc
  | zipTail q ih => exact ih h.2 hc

end Query

end ComposableIndexes
