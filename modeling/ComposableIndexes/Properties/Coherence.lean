import ComposableIndexes.Abstract.Invariants
import ComposableIndexes.Properties.OrderQueries

namespace ComposableIndexes

open Procedure (Keeps)

namespace IdSet

def Filled (s : IdSet) : Prop := s.empty = false

theorem filled_of_mem {s : IdSet} {i : BitVec 64} (h : i ∈ s.toSet) : s.Filled := by
  rw [Filled,← Bool.not_eq_true,s.empty_iff,← Ne,← Set.nonempty_iff_ne_empty]
  exact ⟨i,h⟩

theorem filled_set (s : IdSet) (id : Id) : (s.set id).Filled := by
  refine filled_of_mem (i := id.bits) ?_
  rw [toSet_set]
  exact Set.mem_insert _ _

theorem values_of_filled {s : IdSet} (h : s.Filled) : s.values ≠ [] := by
  rw [Filled,← Bool.not_eq_true,s.empty_iff,← Ne,← Set.nonempty_iff_ne_empty] at h
  obtain ⟨i,hi⟩ := h
  exact List.ne_nil_of_mem ((s.mem_values (Id.fromLong ⟨i,true⟩)).mpr ⟨rfl,hi⟩)

theorem items_once {Out : Type} (ctx : IndexContext Out) (s : IdSet) : ((s.values.map ctx.item).map Item.id).Nodup := by
  rw [List.map_map]
  exact s.values_nodup.map (fun _ _ h => h)

end IdSet

namespace HashIndex

variable {K Out : Type} [DecidableEq K] {s : State K}

theorem add_filled (h : s.All IdSet.Filled) (id : Id) (k : K) : (add id k s).All IdSet.Filled := by
  unfold add
  split
  · exact h.set (IdSet.filled_set _ id)
  · exact h.set (IdSet.filled_set _ id)

theorem delete_filled {E : Exception Out → Prop} (hE : E .typeError) (id : Id) (k : K) :
    Keeps (OrderedMap.All IdSet.Filled) E (fun _ => True) (delete id k : Procedure (Exception Out) (State K) Unit) := by
  intro s h
  unfold delete
  cases s.get k with
  | none => exact .thrown hE h
  | some set =>
    simp only
    split_ifs with he
    · exact .returned trivial h.delete
    · exact .returned trivial (h.set (Bool.eq_false_iff.mpr he))

theorem confined_filled : Confined (OrderedMap.All IdSet.Filled) (fun _ => True) (index : Index K Out (State K)) where
  create := OrderedMap.all_empty
  onUpdate ctx u _ := by
    refine Keeps.pure ?_
    cases u with
    | add id v => exact .write (fun _ hs => add_filled hs id v)
    | update id v w => exact (delete_filled (.inl rfl) id v).bind (fun _ _ => .write (fun _ hs => add_filled hs id w))
    | delete id v => exact delete_filled (.inl rfl) id v

theorem items_eq_nil_iff {ctx : IndexContext Out} {set : Option IdSet} (h : ∀ s, set = some s → s.Filled) :
    items ctx set ≠ [] ↔ set.isSome = true := by
  cases set with
  | none => simp [items]
  | some s => simp [items,IdSet.values_of_filled (h s rfl)]

theorem items_once (ctx : IndexContext Out) (set : Option IdSet) : ((items ctx set).map Item.id).Nodup := by
  cases set with
  | none => exact List.nodup_nil
  | some s => exact s.items_once ctx

-- What the queries of one index say about each other.
structure Coherent (ctx : IndexContext Out) (s : State K) : Prop where
  countDistinct : countDistinct s = {k | eq ctx s k ≠ []}.ncard
  once : ∀ k, ((eq ctx s k).map Item.id).Nodup

theorem coherent_of_filled (ctx : IndexContext Out) (h : s.All IdSet.Filled) : Coherent ctx s where
  countDistinct := by
    have hlength : HashIndex.countDistinct s = s.keys.length := by
      rw [HashIndex.countDistinct,OrderedMap.keys,List.length_map]
      rfl
    rw [hlength]
    refine s.nodupKeys.length_eq_ncard ?_
    intro k
    rw [Set.mem_ofPred_eq,eq,items_eq_nil_iff (h k)]
    exact (s.get_isSome_iff k).symm
  once k := items_once ctx _

end HashIndex

namespace UniqueHashIndex

theorem countDistinct_coherent {K Out : Type} [DecidableEq K] (ctx : IndexContext Out) (s : State K) :
    countDistinct s = {k | eq ctx s k ≠ none}.ncard := by
  have hlength : countDistinct s = s.keys.length := by
    rw [countDistinct,OrderedMap.keys,List.length_map]
    rfl
  rw [hlength]
  refine s.nodupKeys.length_eq_ncard ?_
  intro k
  rw [Set.mem_ofPred_eq,eq,← Option.isSome_iff_ne_none,Option.isSome_map]
  exact (s.get_isSome_iff k).symm

end UniqueHashIndex

namespace BTreeIndex

variable {K Out : Type} [LinearOrder K] {lib : SortedBTree K IdSet} {t : lib.Tree}

def Filled (lib : SortedBTree K IdSet) (t : lib.Tree) : Prop := ∀ k set, lib.get t k = some set → set.Filled

theorem Filled.set (h : Filled lib t) (k : K) {set : IdSet} (hs : set.Filled) : Filled lib (lib.set t k set) := by
  intro k' set' hg
  rw [lib.get_set] at hg
  split_ifs at hg
  · cases hg
    exact hs
  · exact h k' set' hg

theorem Filled.delete (h : Filled lib t) (k : K) : Filled lib (lib.delete t k) := by
  intro k' set' hg
  rw [lib.get_delete] at hg
  split_ifs at hg
  exact h k' set' hg

theorem add_filled (h : Filled lib t) (id : Id) (k : K) : Filled lib (add lib id k t) := by
  unfold add
  split
  · exact h.set k (IdSet.filled_set _ id)
  · exact h.set k (IdSet.filled_set _ id)

theorem delete_filled (h : Filled lib t) (id : Id) (k : K) : Filled lib (delete lib id k t) := by
  unfold delete
  split
  · exact h
  · split_ifs with he
    · exact h.delete k
    · exact h.set k (Bool.eq_false_iff.mpr he)

theorem confined_filled [JsKey K] : Confined (Filled lib) (fun _ => True) (index lib : Index K Out lib.Tree) where
  create := by
    intro k set hg
    rw [index,lib.get_new] at hg
    cases hg
  onUpdate ctx u _ := by
    refine Keeps.pure ?_
    cases u with
    | add id v => exact .write (fun _ hs => add_filled hs id v)
    | update id v w =>
      refine .write (fun _ hs => ?_)
      unfold update
      split_ifs
      · exact hs
      · exact add_filled (delete_filled hs id v) id w
    | delete id v => exact .write (fun _ hs => delete_filled hs id v)

def answered (lib : SortedBTree K IdSet) (ctx : IndexContext Out) (t : lib.Tree) : Set K := {k | eq lib ctx t k ≠ []}

structure Coherent (lib : SortedBTree K IdSet) (ctx : IndexContext Out) (t : lib.Tree) : Prop where
  countDistinct : countDistinct lib t = (answered lib ctx t).ncard
  once : ∀ k, ((eq lib ctx t k).map Item.id).Nodup
  greatest : ∀ k, IsGreatest (answered lib ctx t) k → max lib ctx t = eq lib ctx t k
  least : ∀ k, IsLeast (answered lib ctx t) k → min lib ctx t = eq lib ctx t k
  nothing : answered lib ctx t = ∅ → max lib ctx t = [] ∧ min lib ctx t = []
  greatest1 : max1 lib ctx t = .ok (max lib ctx t).head?
  least1 : min1 lib ctx t = .ok (min lib ctx t).head?
  range : ∀ lo hi limit, ∃ keys : List K, keys.Pairwise (· < ·) ∧ (∀ k, k ∈ keys ↔ k ∈ answered lib ctx t ∧ lo ≤ k ∧ k ≤ hi) ∧
    range lib ctx t lo hi limit = (limit.elim keys (fun n => keys.take (lib.stop n))).flatMap (eq lib ctx t)

section Answered

variable (ctx : IndexContext Out) (h : Filled lib t)

include h

theorem mem_answered (k : K) : k ∈ answered lib ctx t ↔ (lib.get t k).isSome = true :=
  HashIndex.items_eq_nil_iff (h k)

theorem mem_answered_of_entry {p : K × IdSet} (hp : p ∈ lib.entries t) : p.1 ∈ answered lib ctx t := by
  rw [mem_answered ctx h,(lib.mem_entries t p.1 p.2).mp hp,Option.isSome_some]

theorem exists_entry {k : K} (hk : k ∈ answered lib ctx t) : ∃ set, (k,set) ∈ lib.entries t := by
  rw [mem_answered ctx h,Option.isSome_iff_exists] at hk
  obtain ⟨set,hset⟩ := hk
  exact ⟨set,(lib.mem_entries t k set).mpr hset⟩

theorem answered_maxKey : (∀ x, lib.maxKey t = some x → IsGreatest (answered lib ctx t) x) ∧
    (lib.maxKey t = none → answered lib ctx t = ∅) := by
  refine ⟨?_,?_⟩
  · intro x hx
    rw [lib.maxKey_eq,Option.map_eq_some_iff] at hx
    obtain ⟨p,hlast,rfl⟩ := hx
    obtain ⟨before,he⟩ := List.getLast?_eq_some_iff.mp hlast
    have hasc := lib.ascending t
    refine ⟨mem_answered_of_entry ctx h (by simp [he]),?_⟩
    intro y hy
    obtain ⟨set,hset⟩ := exists_entry ctx h hy
    rw [he,List.pairwise_append] at hasc
    rw [he,List.mem_append,List.mem_singleton] at hset
    rcases hset with hset | hset
    · exact (hasc.2.2 _ hset _ (List.mem_singleton.mpr rfl)).le
    · exact (congrArg Prod.fst hset).le
  · intro hx
    rw [lib.maxKey_eq,Option.map_eq_none_iff,List.getLast?_eq_none_iff] at hx
    rw [Set.eq_empty_iff_forall_notMem]
    intro y hy
    obtain ⟨set,hset⟩ := exists_entry ctx h hy
    simp [hx] at hset

theorem answered_minKey : (∀ x, lib.minKey t = some x → IsLeast (answered lib ctx t) x) ∧
    (lib.minKey t = none → answered lib ctx t = ∅) := by
  refine ⟨?_,?_⟩
  · intro x hx
    rw [lib.minKey_eq,Option.map_eq_some_iff] at hx
    obtain ⟨p,hhead,rfl⟩ := hx
    obtain ⟨after,he⟩ := List.head?_eq_some_iff.mp hhead
    have hasc := lib.ascending t
    refine ⟨mem_answered_of_entry ctx h (by simp [he]),?_⟩
    intro y hy
    obtain ⟨set,hset⟩ := exists_entry ctx h hy
    rw [he,List.pairwise_cons] at hasc
    rw [he,List.mem_cons] at hset
    rcases hset with hset | hset
    · exact (congrArg Prod.fst hset).ge
    · exact (hasc.1 _ hset).le
  · intro hx
    rw [lib.minKey_eq,Option.map_eq_none_iff,List.head?_eq_none_iff] at hx
    rw [Set.eq_empty_iff_forall_notMem]
    intro y hy
    obtain ⟨set,hset⟩ := exists_entry ctx h hy
    simp [hx] at hset

theorem countDistinct_answered : countDistinct lib t = (answered lib ctx t).ncard := by
  have hlength : countDistinct lib t = ((lib.entries t).map Prod.fst).length := by
    rw [countDistinct,lib.size_eq,List.length_map]
  have hn : ((lib.entries t).map Prod.fst).Nodup := by
    rw [List.Nodup,List.pairwise_map]
    exact (lib.ascending t).imp (fun hlt => hlt.ne)
  rw [hlength]
  refine hn.length_eq_ncard ?_
  intro k
  rw [List.mem_map]
  constructor
  · rintro ⟨p,hp,rfl⟩
    exact mem_answered_of_entry ctx h hp
  · intro hk
    obtain ⟨set,hset⟩ := exists_entry ctx h hk
    exact ⟨(k,set),hset,rfl⟩

theorem range_answered (lo hi : K) (limit : Option ℕ) : ∃ keys : List K, keys.Pairwise (· < ·) ∧
    (∀ k, k ∈ keys ↔ k ∈ answered lib ctx t ∧ lo ≤ k ∧ k ≤ hi) ∧
    range lib ctx t lo hi limit = (limit.elim keys (fun n => keys.take (lib.stop n))).flatMap (eq lib ctx t) := by
  have hblock : ∀ p ∈ inRange lib t lo hi, p.2.values.map ctx.item = eq lib ctx t p.1 := by
    intro p hp
    rw [eq,(mem_inRange.mp hp).1,HashIndex.items]
  refine ⟨(inRange lib t lo hi).map Prod.fst,?_,?_,?_⟩
  · rw [List.pairwise_map]
    exact (lib.ascending t).filter _
  · intro k
    rw [List.mem_map,mem_answered ctx h,Option.isSome_iff_exists]
    constructor
    · rintro ⟨p,hp,rfl⟩
      obtain ⟨hg,hlo⟩ := mem_inRange.mp hp
      exact ⟨⟨p.2,hg⟩,hlo⟩
    · rintro ⟨⟨set,hg⟩,hlo⟩
      exact ⟨(k,set),mem_inRange.mpr ⟨hg,hlo⟩,rfl⟩
  · rw [range,lib.getRange_eq]
    cases limit with
    | none =>
      rw [Option.elim_none,List.flatMap_map]
      exact List.flatMap_congr hblock
    | some n =>
      rw [Option.elim_some,← List.map_take,List.flatMap_map]
      exact List.flatMap_congr (fun p hp => hblock p (List.mem_of_mem_take hp))

end Answered

theorem extremes_of_key {ctx : IndexContext Out} {key : Option K} {extreme : K → Prop} (hsome : ∀ x, key = some x → extreme x)
    (hnone : key = none → ∀ k, ¬extreme k) (hunique : ∀ x y, extreme x → extreme y → x = y) {k : K} (hk : extreme k) :
    extremes lib ctx t key = eq lib ctx t k := by
  cases key with
  | none => exact absurd hk (hnone rfl k)
  | some x => rw [hunique k x hk (hsome x rfl),extremes,eq]

theorem extreme1_head {ctx : IndexContext Out} {key : Option K} (hkey : ∀ k, key = some k → ∃ set, lib.get t k = some set) :
    extreme1 lib ctx t key = .ok (extremes lib ctx t key).head? := by
  cases key with
  | none => rfl
  | some k =>
    obtain ⟨set,hset⟩ := hkey k rfl
    rw [extreme1,extremes,hset,HashIndex.items,List.head?_map]

theorem coherent_of_filled (ctx : IndexContext Out) (h : Filled lib t) : Coherent lib ctx t := by
  obtain ⟨hmax,hmaxn⟩ := answered_maxKey ctx h
  obtain ⟨hmin,hminn⟩ := answered_minKey ctx h
  refine ⟨countDistinct_answered ctx h,fun k => HashIndex.items_once ctx _,?_,?_,?_,extreme1_head (fun k => maxKey_stored),
    extreme1_head (fun k => minKey_stored),range_answered ctx h⟩
  · intro k hk
    refine extremes_of_key hmax ?_ (fun x y hx hy => hx.unique hy) hk
    intro hn x hx
    rw [hmaxn hn] at hx
    exact hx.1
  · intro k hk
    refine extremes_of_key hmin ?_ (fun x y hx hy => hx.unique hy) hk
    intro hn x hx
    rw [hminn hn] at hx
    exact hx.1
  · intro he
    refine ⟨?_,?_⟩
    · cases hx : lib.maxKey t with
      | none => rw [max,hx,extremes]
      | some x =>
        have hmem := (hmax x hx).1
        rw [he] at hmem
        exact hmem.elim
    · cases hx : lib.minKey t with
      | none => rw [min,hx,extremes]
      | some x =>
        have hmem := (hmin x hx).1
        rw [he] at hmem
        exact hmem.elim

end BTreeIndex

namespace UnregisteredIndex

def Filled : {In : Type} → (e : UnregisteredIndex In) → e.State → Prop
  | _, @hashIndex _ _ => OrderedMap.All IdSet.Filled
  | _, @btreeIndex _ _ _ lib => BTreeIndex.Filled lib
  | _, @uniqueHashIndex _ _ => OrderedMap.All (fun _ => True)
  | _, .aggregate _ => fun _ => True
  | _, .premap _ inner => Filled inner
  | _, @group _ _ _ _ _ inner => OrderedMap.All (Filled inner)
  | _, .zipNil => fun _ => True
  | _, .zipCons head tail => fun s => Filled head s.1 ∧ Filled tail s.2

theorem confined_filled {In : Type} (Out : Type) (e : UnregisteredIndex In) :
    Confined e.Filled (fun _ => True) (e.index Out) := by
  induction e with
  | hashIndex => exact HashIndex.confined_filled
  | btreeIndex lib => exact BTreeIndex.confined_filled
  | uniqueHashIndex => exact UniqueHashIndex.confined
  | aggregate a => exact a.confined Out _
  | premap f inner ih => exact PremapIndex.confined f ih
  | group f inner ih => exact GroupedIndex.confined f ih
  | zipNil => exact ZipIndex.confined_nil
  | zipCons head tail ihh iht => exact ZipIndex.confined_cons ihh iht

-- The queries of the leaves of `e`, in every group, agree with each other.
def Coherent {Out : Type} (ctx : IndexContext Out) : {In : Type} → (e : UnregisteredIndex In) → e.State → Prop
  | _, @hashIndex _ _ => HashIndex.Coherent ctx
  | _, @btreeIndex _ _ _ lib => BTreeIndex.Coherent lib ctx
  | _, @uniqueHashIndex K _ => fun s => UniqueHashIndex.countDistinct s = {k : K | UniqueHashIndex.eq ctx s k ≠ none}.ncard
  | _, .aggregate _ => fun _ => True
  | _, .premap _ inner => Coherent ctx inner
  | _, @group _ _ _ _ _ inner => OrderedMap.All (Coherent ctx inner)
  | _, .zipNil => fun _ => True
  | _, .zipCons head tail => fun s => Coherent ctx head s.1 ∧ Coherent ctx tail s.2

theorem coherent_of_filled {In Out : Type} (ctx : IndexContext Out) (e : UnregisteredIndex In) {s : e.State} (h : e.Filled s) :
    e.Coherent ctx s := by
  induction e with
  | hashIndex => exact HashIndex.coherent_of_filled ctx h
  | btreeIndex lib => exact BTreeIndex.coherent_of_filled ctx h
  | uniqueHashIndex => exact UniqueHashIndex.countDistinct_coherent ctx s
  | aggregate a => trivial
  | premap f inner ih => exact ih h
  | group f inner ih => exact fun g st hg => ih (h g st hg)
  | zipNil => trivial
  | zipCons head tail ihh iht => exact ⟨ihh h.1,iht h.2⟩

end UnregisteredIndex

namespace Collection

variable {T : Type} [JsValue T] {c : Collection T}

def filled (T : Type) : StateInvariant T := ⟨UnregisteredIndex.Filled,UnregisteredIndex.confined_filled T⟩

theorem answers_cohere (h : Visited Call.exec (fun _ _ => True) new c) {ix : RegisteredIndex T} (hix : ix ∈ c.indexes) :
    ix.expr.Coherent c.context ix.state :=
  ix.expr.coherent_of_filled c.context ((filled T).visited h ix hix)

def ruinedCalls : List (Call ℕ) :=
  [.registerIndex tensTree,.registerIndex (.premap some .uniqueHashIndex),.add 11,.set (Id.fromLong ⟨7,false⟩) 25,
    .add 11,.delete (Id.fromLong ⟨7,true⟩),.delete (Id.fromLong ⟨8,true⟩),.add 11]

def ruined : Collection ℕ := (Procedure.play Call.exec ruinedCalls new).2

theorem ruined_visited : Visited Call.exec (fun _ _ => True) new ruined := Procedure.visited_play _ .start

theorem ruined_tree : ∃ (t : (SortedBTree.installed ℕ IdSet).Tree) (log : List (Update ℕ)),
    (⟨tensTree,t,log⟩ : RegisteredIndex ℕ) ∈ ruined.indexes := ⟨_,_,List.mem_cons_self⟩

theorem ruined_tree_coheres : ∃ (t : (SortedBTree.installed ℕ IdSet).Tree) (log : List (Update ℕ)),
    (⟨tensTree,t,log⟩ : RegisteredIndex ℕ) ∈ ruined.indexes ∧ tensTree.Coherent ruined.context t := by
  obtain ⟨t,log,hix⟩ := ruined_tree
  exact ⟨t,log,hix,answers_cohere ruined_visited hix⟩

end Collection

end ComposableIndexes
