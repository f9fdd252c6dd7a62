import ComposableIndexes.Abstract.Queries
import ComposableIndexes.Abstract.Runs
import ComposableIndexes.Library.Blocks

namespace ComposableIndexes

namespace Collection

variable {T K : Type} [JsValue T] {P : Id → Prop} {c : Collection T} {k : T → Option K}

structure ListsExactly (c : Collection T) (k : T → Option K) (x : K) (items : List (Item T)) : Prop where
  once : (items.map Item.id).Nodup
  mem : ∀ it, it ∈ items ↔ ∃ v, (it.id,v) ∈ c.toList ∧ k v = some x ∧ it.value = c.get it.id

theorem items_listExactly {look : K → Option IdSet}
    (h : Buckets (c.contents.filterMap k) (fun x => (look x).map IdSet.toSet)) (x : K) :
    c.ListsExactly k x (HashIndex.items c.context (look x)) := by
  cases hx : look x with
  | none =>
    refine ⟨by simp [HashIndex.items],?_⟩
    intro it
    refine iff_of_false (by simp [HashIndex.items]) ?_
    rintro ⟨v,hp,hk,_⟩
    have hsome := (h.isSome_iff x).mpr ((exists_stored_iff x).mpr ⟨_,hp,hk⟩)
    simp [hx] at hsome
  | some set =>
    have hmem (id : Id) : id.bits ∈ set.toSet ↔ c.contents.filterMap k id.bits = some x :=
      h.mem_bucket (by simp [hx]) id.bits
    refine ⟨?_,?_⟩
    · simpa [HashIndex.items,Function.comp_def,IndexContext.item] using set.values_nodup
    · rintro ⟨id,value⟩
      simp only [HashIndex.items,List.mem_map,IdSet.mem_values,hmem,PartialMap.filterMap_apply,
        Option.bind_eq_some_iff,mem_toList]
      constructor
      · rintro ⟨id',⟨hu,v,hv,hk⟩,he⟩
        cases he
        exact ⟨v,⟨hu,hv⟩,hk,rfl⟩
      · rintro ⟨v,⟨hu,hv⟩,hk,rfl⟩
        exact ⟨id,⟨hu,v,hv,hk⟩,rfl⟩

def distinctKeys [DecidableEq K] (c : Collection T) (k : T → Option K) : List K :=
  (c.toList.filterMap (fun p => k p.2)).dedup

omit [JsValue T] in
theorem distinctKeys_length [DecidableEq K] {keys : List K} {look : K → Option IdSet}
    (h : Buckets (c.contents.filterMap k) (fun x => (look x).map IdSet.toSet)) (hn : keys.Nodup)
    (hm : ∀ x, x ∈ keys ↔ (look x).isSome = true) : keys.length = (c.distinctKeys k).length := by
  refine hn.length_eq_dedup ?_
  intro x
  have hx := h.isSome_iff x
  rw [Option.isSome_map] at hx
  rw [hm,hx,exists_stored_iff,List.mem_filterMap]

theorem equality_queries_exact (h : Reached Call.exec Call.Proper new c) :
    (∀ {K : Type} [DecidableEq K] {k : T → Option K} {s : HashIndex.State K} {log : List (Update T)},
      (⟨.premap k .hashIndex,s,log⟩ : RegisteredIndex T) ∈ c.indexes →
      (∀ x, c.ListsExactly k x (HashIndex.eq c.context s x)) ∧
      HashIndex.countDistinct s = (c.distinctKeys k).length) ∧
    ∀ {K : Type} [LinearOrder K] [JsKey K] {lib : SortedBTree K IdSet} {k : T → Option K} {t : lib.Tree}
      {log : List (Update T)}, (⟨.premap k (.btreeIndex lib),t,log⟩ : RegisteredIndex T) ∈ c.indexes →
      (∀ x, c.ListsExactly k x (BTreeIndex.eq lib c.context t x)) ∧
      BTreeIndex.countDistinct lib t = (c.distinctKeys k).length := by
  have hc := proper_consistent h
  refine ⟨?_,?_⟩
  · intro K _ k s log hix
    have hs : HashIndex.Holds (c.contents.filterMap k) s := (hc.tracks _ hix).holds
    refine ⟨items_listExactly hs,?_⟩
    have hl : s.size = s.keys.length := by simp [OrderedMap.size,OrderedMap.keys]
    rw [HashIndex.countDistinct,hl]
    exact distinctKeys_length hs s.nodupKeys (fun x => (s.get_isSome_iff x).symm)
  · intro K _ _ lib k t log hix
    have hs : BTreeIndex.Holds lib (c.contents.filterMap k) t := (hc.tracks _ hix).holds
    refine ⟨items_listExactly hs,?_⟩
    have hl : lib.size t = ((lib.entries t).map Prod.fst).length := by rw [lib.size_eq,List.length_map]
    rw [BTreeIndex.countDistinct,hl]
    refine distinctKeys_length hs ?_ ?_
    · rw [List.Nodup,List.pairwise_map]
      exact (lib.ascending t).imp (fun hlt => hlt.ne)
    · intro x
      rw [Option.isSome_iff_exists]
      simp [lib.mem_entries]

def tens (n : ℕ) : Option ℕ := if n = 0 then none else some (n / 10)

def tensTree : UnregisteredIndex ℕ := .premap tens (.btreeIndex (SortedBTree.installed ℕ IdSet))

def tensCalls : List (Call ℕ) :=
  [.registerIndex (.premap tens .hashIndex),.registerIndex tensTree,.add 11,.add 12,.add 25,
    .set (Id.fromLong ⟨3,true⟩) 13,.delete (Id.fromLong ⟨1,true⟩)]

def byTens : Collection ℕ := (Procedure.play Call.exec tensCalls new).2

theorem byTens_reached : Reached Call.exec Call.Proper new byTens :=
  Procedure.reached_play tensCalls .start (by decide)

theorem tens_listed : ∃ (s : HashIndex.State ℕ) (t : (SortedBTree.installed ℕ IdSet).Tree) (log log' : List (Update ℕ)),
    byTens.indexes = [⟨.premap tens .hashIndex,s,log⟩,⟨tensTree,t,log'⟩] ∧
    byTens.ListsExactly tens 1 (HashIndex.eq byTens.context s 1) ∧
    BTreeIndex.countDistinct (SortedBTree.installed ℕ IdSet) t = (byTens.distinctKeys tens).length :=
  ⟨_,_,_,_,rfl,((equality_queries_exact byTens_reached).1 (List.mem_cons_self ..)).1 1,
    ((equality_queries_exact byTens_reached).2 (List.mem_cons_of_mem _ (List.mem_cons_self ..))).2⟩

def signedTreeCalls : List (Call ℕ) :=
  [.registerIndex (.premap some .hashIndex),
    .registerIndex (.premap some (.btreeIndex (SortedBTree.installed ℕ IdSet))),
    .set (Id.fromLong ⟨BitVec.allOnes 64,false⟩) 5,.set (Id.fromLong ⟨BitVec.allOnes 64 - 1,true⟩) 6,.add 7]

def signedTree : Collection ℕ := (Procedure.play Call.exec signedTreeCalls new).2

theorem signed_id_listed_under_old_key :
    Procedure.Accepted Call.exec (fun c call => call.DefinedValues ∧ call.BelowTop c) signedTreeCalls new ∧
    ∃ (s : HashIndex.State ℕ) (t : (SortedBTree.installed ℕ IdSet).Tree) (log log' : List (Update ℕ)),
      signedTree.indexes =
        [⟨.premap some .hashIndex,s,log⟩,⟨.premap some (.btreeIndex (SortedBTree.installed ℕ IdSet)),t,log'⟩] ∧
      ¬signedTree.ListsExactly some 5 (HashIndex.eq signedTree.context s 5) ∧
      ¬signedTree.ListsExactly some 5 (BTreeIndex.eq (SortedBTree.installed ℕ IdSet) signedTree.context t 5) := by
  have hnone : ∀ p ∈ signedTree.toList, p.2 ≠ 5 := by decide
  have hno {items : List (Item ℕ)} (hm : (⟨Id.fromLong ⟨BitVec.allOnes 64,true⟩,some 7⟩ : Item ℕ) ∈ items) :
      ¬signedTree.ListsExactly some 5 items := by
    intro hl
    obtain ⟨v,hp,hv,_⟩ := (hl.mem _).mp hm
    exact hnone _ hp (Option.some.inj hv)
  exact ⟨by decide,_,_,_,_,rfl,hno (by decide),hno (by decide)⟩

end Collection

namespace BTreeIndex

variable {T K : Type} [LinearOrder K] [JsKey K]

-- The tree `t` of a B-tree inside an index, and the part `R` of the contents that has reached it.
inductive Within (lib : SortedBTree K IdSet) (t : lib.Tree) (R : Contents K) :
    {In : Type} → (e : UnregisteredIndex In) → Contents In → e.State → Prop where
  | here : Within lib t R (.btreeIndex lib) R t
  | premap {In InnerIn : Type} {f : In → Option InnerIn} {inner : UnregisteredIndex InnerIn} {S : Contents In}
      {s : inner.State} (h : Within lib t R inner (S.filterMap f) s) : Within lib t R (.premap f inner) S s
  | group {In G : Type} [DecidableEq G] [JsKey G] {f : In → G} {inner : UnregisteredIndex In} {S : Contents In}
      {ixs : GroupedIndex.State G inner.State} (g : G) {s : inner.State} (hg : ixs.get g = some s)
      (h : Within lib t R inner (S.filterMap (GroupedIndex.part f g)) s) : Within lib t R (.group f inner) S ixs
  | zipHead {In : Type} {head tail : UnregisteredIndex In} {S : Contents In} {s : head.State × tail.State}
      (h : Within lib t R head S s.1) : Within lib t R (.zipCons head tail) S s
  | zipTail {In : Type} {head tail : UnregisteredIndex In} {S : Contents In} {s : head.State × tail.State}
      (h : Within lib t R tail S s.2) : Within lib t R (.zipCons head tail) S s

variable {P : Id → Prop} {lib : SortedBTree K IdSet} {t : lib.Tree} {R : Contents K} {ctx : IndexContext T}
  {lo hi : K}

theorem Within.holds {In : Type} {e : UnregisteredIndex In} {S : Contents In} {s : e.State}
    (hw : Within lib t R e S s) (h : e.Holds P S s) : Holds lib R t := by
  induction hw with
  | here => exact h
  | premap _ ih => exact ih h
  | group g hg _ ih => exact ih (h.inner g _ hg)
  | zipHead _ ih => exact ih h.1
  | zipTail _ ih => exact ih h.2

def between (R : Contents K) (lo hi : K) : Set (BitVec 64) := {i | ∃ x, R i = some x ∧ lo ≤ x ∧ x ≤ hi}

def keysBelow (R : Contents K) (lo x : K) : Set K := {y | lo ≤ y ∧ y < x ∧ ∃ i, R i = some y}

def inRange (lib : SortedBTree K IdSet) (t : lib.Tree) (lo hi : K) : List (K × IdSet) :=
  (lib.entries t).filter (fun p => lo ≤ p.1 ∧ p.1 ≤ hi)

omit [JsKey K] in
theorem mem_inRange {p : K × IdSet} : p ∈ inRange lib t lo hi ↔ lib.get t p.1 = some p.2 ∧ lo ≤ p.1 ∧ p.1 ≤ hi := by
  simp [inRange,lib.mem_entries]

omit [JsKey K] in
theorem inRange_ascending : (inRange lib t lo hi).Pairwise (fun p q => p.1 < q.1) :=
  (lib.ascending t).filter _

omit [JsKey K] in
theorem mem_bucket_iff (h : Holds lib R t) {p : K × IdSet} (hp : p ∈ inRange lib t lo hi) (i : BitVec 64) :
    i ∈ p.2.toSet ↔ R i = some p.1 :=
  h.mem_bucket (by simp [(mem_inRange.mp hp).1]) i

omit [JsKey K] in
theorem exists_inRange (h : Holds lib R t) {x : K} {i : BitVec 64} (hi' : R i = some x) (hlo : lo ≤ x) (hhi : x ≤ hi) :
    ∃ p ∈ inRange lib t lo hi, p.1 = x := by
  obtain ⟨X,hX,_⟩ := h.exists_bucket hi'
  obtain ⟨set,hset,_⟩ := Option.map_eq_some_iff.mp hX
  exact ⟨(x,set),mem_inRange.mpr ⟨hset,hlo,hhi⟩,rfl⟩

omit [JsKey K] in
theorem range_eq_flatMap (ctx : IndexContext T) (t : lib.Tree) (lo hi : K) :
    range lib ctx t lo hi none = (inRange lib t lo hi).flatMap (fun p => p.2.values.map ctx.item) ∧
    ∀ n, range lib ctx t lo hi (some n) =
      ((inRange lib t lo hi).take (lib.stop n)).flatMap (fun p => p.2.values.map ctx.item) := by
  simp [range,lib.getRange_eq,inRange]

theorem values_bits_nodup (set : IdSet) : (set.values.map Id.bits).Nodup := by
  refine set.values_nodup.map_on ?_
  intro a ha b hb hab
  exact Id.eq_of_bits ((set.mem_values a).mp ha).1 ((set.mem_values b).mp hb).1 hab

theorem mem_values_bits (set : IdSet) (i : BitVec 64) : i ∈ set.values.map Id.bits ↔ i ∈ set.toSet := by
  simp only [List.mem_map,IdSet.mem_values]
  constructor
  · rintro ⟨id,⟨_,hid⟩,rfl⟩
    exact hid
  · intro hi
    exact ⟨Id.fromLong ⟨i,true⟩,⟨rfl,hi⟩,rfl⟩

omit [JsKey K] in
theorem range_length (h : Holds lib R t) (ctx : IndexContext T) (lo hi : K) :
    (range lib ctx t lo hi none).length = (between R lo hi).ncard := by
  have hn : ((inRange lib t lo hi).flatMap (fun p => p.2.values.map Id.bits)).Nodup := by
    rw [List.nodup_flatMap]
    refine ⟨fun p _ => values_bits_nodup p.2,?_⟩
    refine inRange_ascending.imp_of_mem ?_
    intro p q hp hq hlt i hip hiq
    rw [mem_values_bits,mem_bucket_iff h hp] at hip
    rw [mem_values_bits,mem_bucket_iff h hq,hip] at hiq
    exact hlt.ne (Option.some.inj hiq)
  have hm (i : BitVec 64) : i ∈ (inRange lib t lo hi).flatMap (fun p => p.2.values.map Id.bits) ↔ i ∈ between R lo hi := by
    rw [List.mem_flatMap]
    constructor
    · rintro ⟨p,hp,hi'⟩
      rw [mem_values_bits,mem_bucket_iff h hp] at hi'
      exact ⟨p.1,hi',(mem_inRange.mp hp).2⟩
    · rintro ⟨x,hx,hlo,hhi⟩
      obtain ⟨p,hp,rfl⟩ := exists_inRange h hx hlo hhi
      exact ⟨p,hp,by rwa [mem_values_bits,mem_bucket_iff h hp]⟩
  rw [← hn.length_eq_ncard hm,(range_eq_flatMap ctx t lo hi).1]
  simp [List.length_flatMap]

omit [JsKey K] in
theorem keysBelow_ncard (h : Holds lib R t) {x : K} (hx : x ≤ hi) :
    ((inRange lib t lo hi).filter (fun p => p.1 < x)).length = (keysBelow R lo x).ncard := by
  have hn : (((inRange lib t lo hi).filter (fun p => p.1 < x)).map Prod.fst).Nodup := by
    rw [List.Nodup,List.pairwise_map]
    exact (inRange_ascending.filter _).imp (fun hlt => hlt.ne)
  rw [← List.length_map Prod.fst]
  refine hn.length_eq_ncard ?_
  intro y
  simp only [List.mem_map,List.mem_filter,decide_eq_true_eq]
  constructor
  · rintro ⟨p,⟨hp,hlt⟩,rfl⟩
    obtain ⟨hg,hlo,_⟩ := mem_inRange.mp hp
    exact ⟨hlo,hlt,(h.isSome_iff p.1).mp (by simp [hg])⟩
  · rintro ⟨hlo,hlt,i,hi'⟩
    obtain ⟨p,hp,rfl⟩ := exists_inRange h hi' hlo (hlt.le.trans hx)
    exact ⟨p,⟨hp,hlt⟩,rfl⟩

omit [JsKey K] in
theorem bucket_length_pos (ctx : IndexContext T) (h : Holds lib R t) {p : K × IdSet} (hp : p ∈ inRange lib t lo hi) :
    1 ≤ (p.2.values.map ctx.item).length := by
  obtain ⟨i,hi'⟩ := h.nonempty p.1 p.2.toSet (by simp [(mem_inRange.mp hp).1])
  rw [← mem_values_bits] at hi'
  have hpos := List.length_pos_of_mem hi'
  rw [List.length_map] at hpos ⊢
  exact hpos

omit [JsKey K] in
theorem bucket_length_eq_one_iff (h : Holds lib R t) {p : K × IdSet} (hp : p ∈ inRange lib t lo hi) :
    (p.2.values.map ctx.item).length = 1 ↔ ∀ i j, R i = some p.1 → R j = some p.1 → i = j := by
  have hpos := bucket_length_pos ctx h hp
  have hn := values_bits_nodup p.2
  have hm (i : BitVec 64) : i ∈ p.2.values.map Id.bits ↔ R i = some p.1 := by
    rw [mem_values_bits,mem_bucket_iff h hp]
  simp only [← hm]
  rw [List.length_map] at hpos ⊢
  rw [← List.length_map Id.bits] at hpos ⊢
  generalize p.2.values.map Id.bits = l at hpos hn
  match l with
  | [] => simp at hpos
  | [a] => simp
  | a :: b :: l =>
    refine iff_of_false (by simp) ?_
    intro hall
    have hab := hall a b (by simp) (by simp)
    simp [hab] at hn

end BTreeIndex

namespace Collection

open BTreeIndex (Within between keysBelow inRange)

variable {T K : Type} [LinearOrder K] [JsKey K] {lib : SortedBTree K IdSet} {t : lib.Tree} {R : Contents K}

-- With the limit `n` the tree stops after `n` keys, whatever the number of items below each of them.
omit [JsKey K] in
theorem limit_kept_iff (hlib : lib.StopsAtLimit) (h : BTreeIndex.Holds lib R t) (ctx : IndexContext T) (lo hi : K)
    (n : ℕ) :
    (BTreeIndex.range lib ctx t lo hi (some n)).length = min n (between R lo hi).ncard ↔
      (between R lo hi).ncard ≤ n ∨
      ∀ x i j, lo ≤ x → x ≤ hi → R i = some x → R j = some x → i ≠ j → n ≤ (keysBelow R lo x).ncard := by
  have hpos : ∀ p ∈ inRange lib t lo hi, 1 ≤ (p.2.values.map ctx.item).length :=
    fun p hp => BTreeIndex.bucket_length_pos ctx h hp
  rw [← BTreeIndex.range_length h ctx lo hi,(BTreeIndex.range_eq_flatMap ctx t lo hi).1,
    (BTreeIndex.range_eq_flatMap ctx t lo hi).2 n,hlib n,List.flatMap_take_length_iff hpos]
  refine or_congr_right ?_
  constructor
  · intro hall x i j hlo hhi hi' hj hne
    obtain ⟨p,hp,rfl⟩ := BTreeIndex.exists_inRange h hi' hlo hhi
    rw [← BTreeIndex.keysBelow_ncard h hhi]
    by_contra hlt
    have hp' := (List.mem_take_iff_rank BTreeIndex.inRange_ascending hp n).mpr (not_le.mp hlt)
    exact hne ((BTreeIndex.bucket_length_eq_one_iff h hp).mp (hall p hp') i j hi' hj)
  · intro hall p hp
    have hp' := List.mem_of_mem_take hp
    rw [BTreeIndex.bucket_length_eq_one_iff h hp']
    intro i j hi' hj
    by_contra hne
    obtain ⟨_,hlo,hhi⟩ := BTreeIndex.mem_inRange.mp hp'
    have hle := hall p.1 i j hlo hhi hi' hj hne
    rw [← BTreeIndex.keysBelow_ncard h hhi] at hle
    exact absurd ((List.mem_take_iff_rank BTreeIndex.inRange_ascending hp' n).mp hp) (not_lt.mpr hle)

theorem range_respects_limit_iff [JsValue T] (hlib : lib.StopsAtLimit) {c : Collection T}
    (h : Reached Call.exec Call.Proper new c) {ix : RegisteredIndex T} (hix : ix ∈ c.indexes)
    (hw : Within lib t R ix.expr c.contents ix.state) (lo hi : K) (limit : ℕ) :
    ((BTreeIndex.range lib c.context t lo hi (some limit)).length = min limit (between R lo hi).ncard ∧
      BTreeIndex.range lib c.context t lo hi (some limit) =
        (BTreeIndex.range lib c.context t lo hi none).take (min limit (between R lo hi).ncard)) ↔
    (between R lo hi).ncard ≤ limit ∨
      ∀ x i j, lo ≤ x → x ≤ hi → R i = some x → R j = some x → i ≠ j → limit ≤ (keysBelow R lo x).ncard := by
  have hs := hw.holds ((proper_consistent h).tracks ix hix).holds
  rw [← limit_kept_iff hlib hs c.context]
  constructor
  · exact fun hl => hl.1
  · intro hl
    refine ⟨hl,?_⟩
    rw [← hl,(BTreeIndex.range_eq_flatMap c.context t lo hi).1,(BTreeIndex.range_eq_flatMap c.context t lo hi).2]
    exact List.flatMap_take_prefix _ _

def limitedTree : UnregisteredIndex ℕ := .premap tens (.btreeIndex (SortedBTree.documented ℕ IdSet))

def limitedCalls : List (Call ℕ) :=
  [.registerIndex limitedTree,.add 11,.add 12,.add 25,.set (Id.fromLong ⟨3,true⟩) 13,.delete (Id.fromLong ⟨1,true⟩)]

def limitedTens : Collection ℕ := (Procedure.play Call.exec limitedCalls new).2

theorem limitedTens_reached : Reached Call.exec Call.Proper new limitedTens :=
  Procedure.reached_play limitedCalls .start (by decide)

theorem limitedTens_between : (between (limitedTens.contents.filterMap tens) 0 9).ncard = 2 := by
  have hs := (Within.premap Within.here).holds
    ((proper_consistent limitedTens_reached).tracks _ (List.mem_cons_self ..)).holds
  rw [← BTreeIndex.range_length hs limitedTens.context 0 9]
  decide

theorem two_items_within_limit : ∃ (t : (SortedBTree.documented ℕ IdSet).Tree) (log : List (Update ℕ)),
    (⟨limitedTree,t,log⟩ : RegisteredIndex ℕ) ∈ limitedTens.indexes ∧
    (BTreeIndex.range _ limitedTens.context t 0 9 (some 2)).length =
      min 2 (between (limitedTens.contents.filterMap tens) 0 9).ncard :=
  ⟨_,_,List.mem_cons_self ..,
    ((range_respects_limit_iff SortedBTree.documented_stopsAtLimit limitedTens_reached (List.mem_cons_self ..)
      (.premap .here) 0 9 2).mpr (.inl limitedTens_between.le)).1⟩

theorem limit_exceeded_by_shared_key : Reached Call.exec Call.Proper new limitedTens ∧
    ∃ (t : (SortedBTree.documented ℕ IdSet).Tree) (log : List (Update ℕ)),
      (⟨limitedTree,t,log⟩ : RegisteredIndex ℕ) ∈ limitedTens.indexes ∧
      Within _ t (limitedTens.contents.filterMap tens) limitedTree limitedTens.contents t ∧
      (BTreeIndex.range _ limitedTens.context t 0 9 (some 1)).length ≠
        min 1 (between (limitedTens.contents.filterMap tens) 0 9).ncard := by
  refine ⟨limitedTens_reached,_,_,List.mem_cons_self ..,.premap .here,?_⟩
  rw [limitedTens_between]
  decide

end Collection

end ComposableIndexes
