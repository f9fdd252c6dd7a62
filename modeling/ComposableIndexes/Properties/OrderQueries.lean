import ComposableIndexes.Properties.KeyQueries

namespace ComposableIndexes

namespace BTreeIndex

variable {K : Type} [LinearOrder K] {lib : SortedBTree K IdSet} {t : lib.Tree} {R : Contents K}

def storedKeys (R : Contents K) : Set K := {x | ∃ i, R i = some x}

theorem mem_storedKeys (h : Holds lib R t) (x : K) : x ∈ storedKeys R ↔ ∃ set, (x,set) ∈ lib.entries t := by
  have hx := h.isSome_iff x
  rw [Option.isSome_map,Option.isSome_iff_exists] at hx
  simp only [lib.mem_entries]
  exact hx.symm

theorem maxKey_isGreatest (h : Holds lib R t) {x : K} (hx : lib.maxKey t = some x) : IsGreatest (storedKeys R) x := by
  rw [lib.maxKey_eq,Option.map_eq_some_iff] at hx
  obtain ⟨⟨_,set⟩,hlast,rfl⟩ := hx
  obtain ⟨before,he⟩ := List.getLast?_eq_some_iff.mp hlast
  have hasc := lib.ascending t
  refine ⟨(mem_storedKeys h _).mpr ⟨set,by simp [he]⟩,?_⟩
  intro y hy
  obtain ⟨set',hy'⟩ := (mem_storedKeys h y).mp hy
  rw [he,List.pairwise_append] at hasc
  rw [he,List.mem_append,List.mem_singleton] at hy'
  rcases hy' with hy' | hy'
  · exact (hasc.2.2 _ hy' _ (List.mem_singleton.mpr rfl)).le
  · exact (congrArg Prod.fst hy').le

theorem minKey_isLeast (h : Holds lib R t) {x : K} (hx : lib.minKey t = some x) : IsLeast (storedKeys R) x := by
  rw [lib.minKey_eq,Option.map_eq_some_iff] at hx
  obtain ⟨⟨_,set⟩,hhead,rfl⟩ := hx
  obtain ⟨after,he⟩ := List.head?_eq_some_iff.mp hhead
  have hasc := lib.ascending t
  refine ⟨(mem_storedKeys h _).mpr ⟨set,by simp [he]⟩,?_⟩
  intro y hy
  obtain ⟨set',hy'⟩ := (mem_storedKeys h y).mp hy
  rw [he,List.pairwise_cons] at hasc
  rw [he,List.mem_cons] at hy'
  rcases hy' with hy' | hy'
  · exact (congrArg Prod.fst hy').ge
  · exact (hasc.1 _ hy').le

theorem storedKeys_of_entries_nil (h : Holds lib R t) (he : lib.entries t = []) : storedKeys R = ∅ := by
  rw [Set.eq_empty_iff_forall_notMem]
  intro x hx
  obtain ⟨set,hset⟩ := (mem_storedKeys h x).mp hx
  simp [he] at hset

theorem storedKeys_of_maxKey (h : Holds lib R t) (hx : lib.maxKey t = none) : storedKeys R = ∅ := by
  rw [lib.maxKey_eq,Option.map_eq_none_iff,List.getLast?_eq_none_iff] at hx
  exact storedKeys_of_entries_nil h hx

theorem storedKeys_of_minKey (h : Holds lib R t) (hx : lib.minKey t = none) : storedKeys R = ∅ := by
  rw [lib.minKey_eq,Option.map_eq_none_iff,List.head?_eq_none_iff] at hx
  exact storedKeys_of_entries_nil h hx

end BTreeIndex

namespace Collection

open BTreeIndex (inRange)

variable {T K : Type} [JsValue T] [LinearOrder K] [JsKey K] {c : Collection T} {k : T → Option K}
  {lib : SortedBTree K IdSet} {t : lib.Tree} {log : List (Update T)} {lo hi : K}

def itemKey (k : T → Option K) (it : Item T) : Option K := it.value.bind k

structure ListsBetween (c : Collection T) (k : T → Option K) (lo hi : K) (items : List (Item T)) : Prop where
  once : (items.map Item.id).Nodup
  mem : ∀ it, it ∈ items ↔ ∃ v x, (it.id,v) ∈ c.toList ∧ k v = some x ∧ lo ≤ x ∧ x ≤ hi ∧ it.value = some v
  sorted : items.Pairwise (fun a b => ∀ x y, itemKey k a = some x → itemKey k b = some y → x ≤ y)

omit [JsKey K] in
theorem mem_block (hd : ∀ i v, c.contents i = some v → JsValue.Defined v)
    (h : BTreeIndex.Holds lib (c.contents.filterMap k) t) {p : K × IdSet} (hp : p ∈ inRange lib t lo hi) (it : Item T) :
    it ∈ p.2.values.map c.context.item ↔ ∃ v, (it.id,v) ∈ c.toList ∧ k v = some p.1 ∧ it.value = some v := by
  obtain ⟨id,value⟩ := it
  simp only [List.mem_map,IdSet.mem_values,BTreeIndex.mem_bucket_iff h hp,PartialMap.filterMap_apply,
    Option.bind_eq_some_iff,mem_toList]
  constructor
  · rintro ⟨id',⟨hu,v,hv,hk⟩,he⟩
    cases he
    exact ⟨v,⟨hu,hv⟩,hk,get_of_contents hv (hd _ v hv)⟩
  · rintro ⟨v,⟨hu,hv⟩,hk,rfl⟩
    have hg : c.context.get id = some v := get_of_contents hv (hd _ v hv)
    exact ⟨id,⟨hu,v,hv,hk⟩,by rw [IndexContext.item,hg]⟩

omit [JsKey K] in
theorem itemKey_block (hd : ∀ i v, c.contents i = some v → JsValue.Defined v)
    (h : BTreeIndex.Holds lib (c.contents.filterMap k) t) {p : K × IdSet} (hp : p ∈ inRange lib t lo hi) {it : Item T}
    (hit : it ∈ p.2.values.map c.context.item) : itemKey k it = some p.1 := by
  obtain ⟨v,_,hk,hv⟩ := (mem_block hd h hp it).mp hit
  rw [itemKey,hv,Option.bind_some,hk]

omit [JsKey K] in
theorem range_listsBetween (hd : ∀ i v, c.contents i = some v → JsValue.Defined v)
    (h : BTreeIndex.Holds lib (c.contents.filterMap k) t) (lo hi : K) :
    c.ListsBetween k lo hi (BTreeIndex.range lib c.context t lo hi none) := by
  rw [(BTreeIndex.range_eq_flatMap c.context t lo hi).1]
  refine ⟨?_,?_,?_⟩
  · rw [List.map_flatMap,List.nodup_flatMap]
    refine ⟨?_,?_⟩
    · intro p _
      simpa [Function.comp_def,IndexContext.item] using p.2.values_nodup
    · refine BTreeIndex.inRange_ascending.imp_of_mem ?_
      intro p q hp hq hlt id hip hiq
      obtain ⟨a,ha,rfl⟩ := List.mem_map.mp hip
      obtain ⟨b,hb,hab⟩ := List.mem_map.mp hiq
      obtain ⟨v,hv,hkv,_⟩ := (mem_block hd h hp a).mp ha
      obtain ⟨w,hw,hkw,_⟩ := (mem_block hd h hq b).mp hb
      rw [hab,mem_toList,(mem_toList.mp hv).2] at hw
      rw [← Option.some.inj hw.2,hkv] at hkw
      exact hlt.ne (Option.some.inj hkw)
  · intro it
    rw [List.mem_flatMap]
    constructor
    · rintro ⟨p,hp,hit⟩
      obtain ⟨v,hv,hk,he⟩ := (mem_block hd h hp it).mp hit
      obtain ⟨_,hlo,hhi⟩ := BTreeIndex.mem_inRange.mp hp
      exact ⟨v,p.1,hv,hk,hlo,hhi,he⟩
    · rintro ⟨v,x,hv,hk,hlo,hhi,he⟩
      have hx : c.contents.filterMap k it.id.bits = some x := by
        rw [PartialMap.filterMap_apply,(mem_toList.mp hv).2,Option.bind_some,hk]
      obtain ⟨p,hp,rfl⟩ := BTreeIndex.exists_inRange h hx hlo hhi
      exact ⟨p,hp,(mem_block hd h hp it).mpr ⟨v,hv,hk,he⟩⟩
  · rw [List.pairwise_flatMap]
    refine ⟨?_,?_⟩
    · intro p hp
      refine List.pairwise_of_forall_mem_list ?_
      intro a ha b hb x y hx hy
      rw [itemKey_block hd h hp ha] at hx
      rw [itemKey_block hd h hp hb,hx] at hy
      exact (Option.some.inj hy).le
    · refine BTreeIndex.inRange_ascending.imp_of_mem ?_
      intro p q hp hq hlt a ha b hb x y hx hy
      rw [itemKey_block hd h hp ha] at hx
      rw [itemKey_block hd h hq hb] at hy
      rw [← Option.some.inj hx,← Option.some.inj hy]
      exact hlt.le

theorem range_exact_and_sorted (h : Reached Call.exec Call.Proper new c)
    (hix : (⟨.premap k (.btreeIndex lib),t,log⟩ : RegisteredIndex T) ∈ c.indexes) (lo hi : K) :
    c.ListsBetween k lo hi (BTreeIndex.range lib c.context t lo hi none) := by
  have hc := proper_consistent h
  have hs : BTreeIndex.Holds lib (c.contents.filterMap k) t := (hc.tracks _ hix).holds
  exact range_listsBetween hc.defined hs lo hi

theorem byTens_tree : ∃ (t : (SortedBTree.installed ℕ IdSet).Tree) (log : List (Update ℕ)),
    (⟨tensTree,t,log⟩ : RegisteredIndex ℕ) ∈ byTens.indexes := ⟨_,_,List.mem_cons_of_mem _ (List.mem_cons_self ..)⟩

theorem ones_to_threes_in_order : ∃ (t : (SortedBTree.installed ℕ IdSet).Tree) (log : List (Update ℕ)),
    (⟨tensTree,t,log⟩ : RegisteredIndex ℕ) ∈ byTens.indexes ∧
    byTens.ListsBetween tens 1 3 (BTreeIndex.range _ byTens.context t 1 3 none) := by
  obtain ⟨t,log,hix⟩ := byTens_tree
  exact ⟨t,log,hix,range_exact_and_sorted byTens_reached hix 1 3⟩

theorem signed_id_in_wrong_range :
    Procedure.Accepted Call.exec (fun c call => call.DefinedValues ∧ call.BelowTop c) signedTreeCalls new ∧
    ∃ (t : (SortedBTree.installed ℕ IdSet).Tree) (log : List (Update ℕ)),
      (⟨.premap some (.btreeIndex (SortedBTree.installed ℕ IdSet)),t,log⟩ : RegisteredIndex ℕ) ∈ signedTree.indexes ∧
      ¬signedTree.ListsBetween some 5 5 (BTreeIndex.range _ signedTree.context t 5 5 none) := by
  have hno {items : List (Item ℕ)} (hm : (⟨Id.fromLong ⟨BitVec.allOnes 64,true⟩,some 7⟩ : Item ℕ) ∈ items) :
      ¬signedTree.ListsBetween some 5 5 items := by
    intro hl
    obtain ⟨v,x,_,hk,_,hhi,hv⟩ := (hl.mem _).mp hm
    cases hv
    cases hk
    exact absurd hhi (by decide)
  exact ⟨by decide,_,_,List.mem_cons_of_mem _ (List.mem_cons_self ..),hno (by decide)⟩

section Extremes

structure ListsExtreme (c : Collection T) (k : T → Option K) (extreme : Set K → K → Prop) (items : List (Item T)) :
    Prop where
  once : (items.map Item.id).Nodup
  mem : ∀ it, it ∈ items ↔
    ∃ v x, (it.id,v) ∈ c.toList ∧ k v = some x ∧ extreme {y | ∃ p ∈ c.toList, k p.2 = some y} x ∧ it.value = some v
  empty : items = [] ↔ ∀ p ∈ c.toList, k p.2 = none

def ChoosesFrom (items : List (Item T)) (r : Except (Exception T) (Option (Item T))) : Prop :=
  ∃ a, r = .ok a ∧ (a = none ↔ items = []) ∧ ∀ it, a = some it → it ∈ items

omit [JsValue T] [LinearOrder K] [JsKey K] in
theorem storedKeys_eq (c : Collection T) (k : T → Option K) :
    {x | ∃ i, c.contents.filterMap k i = some x} = {x | ∃ p ∈ c.toList, k p.2 = some x} := by
  ext x
  exact exists_stored_iff x

omit [JsKey K] in
theorem extremes_listExtreme {extreme : Set K → K → Prop} {key : Option K}
    (hd : ∀ i v, c.contents i = some v → JsValue.Defined v)
    (h : BTreeIndex.Holds lib (c.contents.filterMap k) t)
    (hmem : ∀ s x, extreme s x → x ∈ s) (hunique : ∀ s x y, extreme s x → extreme s y → x = y)
    (hsome : ∀ x, key = some x → extreme (BTreeIndex.storedKeys (c.contents.filterMap k)) x)
    (hnone : key = none → BTreeIndex.storedKeys (c.contents.filterMap k) = ∅) :
    c.ListsExtreme k extreme (BTreeIndex.extremes lib c.context t key) := by
  rw [BTreeIndex.storedKeys,storedKeys_eq] at hsome hnone
  cases key with
  | none =>
    have hno : ∀ p ∈ c.toList, k p.2 = none := by
      intro p hp
      by_contra hk
      obtain ⟨x,hx⟩ := Option.ne_none_iff_exists'.mp hk
      exact (Set.eq_empty_iff_forall_notMem.mp (hnone rfl)) x ⟨p,hp,hx⟩
    refine ⟨by simp [BTreeIndex.extremes],?_,iff_of_true rfl hno⟩
    intro it
    refine iff_of_false (by simp [BTreeIndex.extremes]) ?_
    rintro ⟨v,x,hv,hk,_⟩
    rw [hno _ hv] at hk
    cases hk
  | some x =>
    have hx := hsome x rfl
    have hl := items_listExactly h x
    refine ⟨hl.once,?_,?_⟩
    · intro it
      rw [BTreeIndex.extremes,hl.mem it]
      constructor
      · rintro ⟨v,hv,hk,he⟩
        have hg : c.get it.id = some v := get_of_contents (mem_toList.mp hv).2 (hd _ v (mem_toList.mp hv).2)
        exact ⟨v,x,hv,hk,hx,he.trans hg⟩
      · rintro ⟨v,y,hv,hk,hy,he⟩
        have hg : c.get it.id = some v := get_of_contents (mem_toList.mp hv).2 (hd _ v (mem_toList.mp hv).2)
        rw [hunique _ y x hy hx] at hk
        exact ⟨v,hv,hk,he.trans hg.symm⟩
    · obtain ⟨⟨id,v⟩,hp,hk⟩ := hmem _ x hx
      refine iff_of_false ?_ ?_
      · intro he
        have hit := (hl.mem ⟨id,c.get id⟩).mpr ⟨v,hp,hk,rfl⟩
        rw [BTreeIndex.extremes] at he
        rw [he] at hit
        cases hit
      · intro hno
        rw [hno _ hp] at hk
        cases hk

theorem extremal_queries_exact (h : Reached Call.exec Call.Proper new c)
    (hix : (⟨.premap k (.btreeIndex lib),t,log⟩ : RegisteredIndex T) ∈ c.indexes) :
    c.ListsExtreme k IsGreatest (BTreeIndex.max lib c.context t) ∧
    c.ListsExtreme k IsLeast (BTreeIndex.min lib c.context t) ∧
    ChoosesFrom (BTreeIndex.max lib c.context t) (BTreeIndex.max1 lib c.context t) ∧
    ChoosesFrom (BTreeIndex.min lib c.context t) (BTreeIndex.min1 lib c.context t) := by
  have hc := proper_consistent h
  have hs : BTreeIndex.Holds lib (c.contents.filterMap k) t := (hc.tracks _ hix).holds
  refine ⟨?_,?_,?_,?_⟩
  · exact extremes_listExtreme hc.defined hs (fun _ _ hx => hx.1) (fun _ _ _ hx hy => hx.unique hy)
      (fun _ hx => BTreeIndex.maxKey_isGreatest hs hx) (BTreeIndex.storedKeys_of_maxKey hs)
  · exact extremes_listExtreme hc.defined hs (fun _ _ hx => hx.1) (fun _ _ _ hx hy => hx.unique hy)
      (fun _ hx => BTreeIndex.minKey_isLeast hs hx) (BTreeIndex.storedKeys_of_minKey hs)
  · exact BTreeIndex.extreme1_spec c.context (fun _ => BTreeIndex.maxKey_stored)
  · exact BTreeIndex.extreme1_spec c.context (fun _ => BTreeIndex.minKey_stored)

theorem greatest_tens : ∃ (t : (SortedBTree.installed ℕ IdSet).Tree) (log : List (Update ℕ)),
    (⟨tensTree,t,log⟩ : RegisteredIndex ℕ) ∈ byTens.indexes ∧
    byTens.ListsExtreme tens IsGreatest (BTreeIndex.max _ byTens.context t) ∧
    ChoosesFrom (BTreeIndex.max _ byTens.context t) (BTreeIndex.max1 _ byTens.context t) := by
  obtain ⟨t,log,hix⟩ := byTens_tree
  obtain ⟨hmax,_,hmax1,_⟩ := extremal_queries_exact byTens_reached hix
  exact ⟨t,log,hix,hmax,hmax1⟩

theorem signed_id_is_wrong_minimum :
    Procedure.Accepted Call.exec (fun c call => call.DefinedValues ∧ call.BelowTop c) signedTreeCalls new ∧
    ∃ (t : (SortedBTree.installed ℕ IdSet).Tree) (log : List (Update ℕ)),
      (⟨.premap some (.btreeIndex (SortedBTree.installed ℕ IdSet)),t,log⟩ : RegisteredIndex ℕ) ∈ signedTree.indexes ∧
      ¬signedTree.ListsExtreme some IsLeast (BTreeIndex.min _ signedTree.context t) := by
  have hno {items : List (Item ℕ)} (hm : (⟨Id.fromLong ⟨BitVec.allOnes 64,true⟩,some 7⟩ : Item ℕ) ∈ items) :
      ¬signedTree.ListsExtreme some IsLeast items := by
    intro hl
    obtain ⟨v,x,_,hk,hleast,hv⟩ := (hl.mem _).mp hm
    cases hv
    cases hk
    have hle := hleast.2 ⟨(Id.fromLong ⟨BitVec.allOnes 64 - 1,true⟩,6),by decide,rfl⟩
    exact absurd hle (by decide)
  exact ⟨by decide,_,_,List.mem_cons_of_mem _ (List.mem_cons_self ..),hno (by decide)⟩

end Extremes

end Collection

end ComposableIndexes
