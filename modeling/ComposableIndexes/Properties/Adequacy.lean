import ComposableIndexes.Abstract.Meaning
import ComposableIndexes.Properties.OrderQueries

namespace ComposableIndexes

variable {Out : Type} {ctx : IndexContext Out} {root : Contents Out}

-- Queries read the values of their items from the collection, not from the index.
def ReadsFrom (ctx : IndexContext Out) (root : Contents Out) : Prop := ∀ id : Id, ctx.get id = root id.bits

theorem mem_values_item (hs : ReadsFrom ctx root) (set : IdSet) (it : Item Out) :
    it ∈ set.values.map ctx.item ↔ it.id.Unsigned ∧ it.id.bits ∈ set.toSet ∧ it.value = root it.id.bits := by
  obtain ⟨id,value⟩ := it
  simp only [List.mem_map,IdSet.mem_values]
  constructor
  · rintro ⟨id',⟨hu,hm⟩,he⟩
    cases he
    exact ⟨hu,hm,hs id⟩
  · rintro ⟨hu,hm,rfl⟩
    exact ⟨id,⟨hu,hm⟩,by rw [IndexContext.item,hs id]⟩

theorem picks_set (hs : ReadsFrom ctx root) (set : IdSet) : Picks root set.toSet (set.values.map ctx.item) := by
  refine ⟨?_,mem_values_item hs set⟩
  simpa [Function.comp_def,IndexContext.item] using set.values_nodup

section Buckets

variable {K : Type} {S : Contents K} {look : K → Option IdSet}

theorem picks_items (hs : ReadsFrom ctx root) (h : Buckets S (fun x => (look x).map IdSet.toSet)) (key : K) :
    Picks root (withKey S key) (HashIndex.items ctx (look key)) := by
  cases hk : look key with
  | none =>
    have hX : withKey S key = ∅ := by
      rw [Set.eq_empty_iff_forall_notMem]
      intro i hi
      have hsome := (h.isSome_iff key).mpr ⟨i,hi⟩
      simp [hk] at hsome
    rw [hX]
    exact ⟨by simp [HashIndex.items],by simp [HashIndex.items]⟩
  | some set =>
    have hX : withKey S key = set.toSet := by
      ext i
      exact (h.mem_bucket (by simp [hk]) i).symm
    rw [hX]
    exact picks_set hs set

theorem occurring_ncard {keys : List K} (h : Buckets S (fun x => (look x).map IdSet.toSet)) (hn : keys.Nodup)
    (hm : ∀ x, x ∈ keys ↔ (look x).isSome = true) : keys.length = (occurring S).ncard := by
  refine hn.length_eq_ncard ?_
  intro x
  have hx := h.isSome_iff x
  rw [Option.isSome_map] at hx
  rw [hm,hx]
  rfl

end Buckets

theorem HashIndex.countDistinct_ncard {K : Type} [DecidableEq K] {S : Contents K} {s : State K} (h : Holds S s) :
    countDistinct s = (occurring S).ncard := by
  have hl : s.size = s.keys.length := by simp [OrderedMap.size,OrderedMap.keys]
  rw [countDistinct,hl]
  exact occurring_ncard h s.nodupKeys (fun x => (s.get_isSome_iff x).symm)

namespace UniqueHashIndex

variable {K : Type} [DecidableEq K] {P : Id → Prop} {S : Contents K} {s : State K}

theorem countDistinct_ncard (h : Holds P S s) : countDistinct s = (occurring S).ncard := by
  have hl : s.size = s.keys.length := by simp [OrderedMap.size,OrderedMap.keys]
  rw [countDistinct,hl]
  refine List.Nodup.length_eq_ncard s.nodupKeys ?_
  exact fun x => (s.get_isSome_iff x).symm.trans (has_iff h x)

theorem withKey_subsingleton (h : Holds P S s) (key : K) : (withKey S key).Subsingleton :=
  fun _ hi _ hj => holder_unique h hi hj

theorem chooses_eq (hs : ReadsFrom ctx root) (h : Holds P S s) (key : K) :
    Chooses P root (withKey S key) (eq ctx s key) := by
  refine ⟨?_,?_⟩
  · rw [eq,Option.map_eq_none_iff,← not_iff_not,← ne_eq,← ne_eq,Option.ne_none_iff_isSome,← Set.nonempty_iff_ne_empty]
    exact has_iff h key
  · intro it hit
    rw [eq,Option.map_eq_some_iff] at hit
    obtain ⟨id,hid,rfl⟩ := hit
    exact ⟨h.ids key id hid,h.stored hid,hs id⟩

end UniqueHashIndex

namespace BTreeIndex

variable {K : Type} [LinearOrder K] {lib : SortedBTree K IdSet} {S : Contents K} {t : lib.Tree}

theorem countDistinct_ncard (h : Holds lib S t) : countDistinct lib t = (occurring S).ncard := by
  have hl : lib.size t = ((lib.entries t).map Prod.fst).length := by rw [lib.size_eq,List.length_map]
  rw [countDistinct,hl]
  refine occurring_ncard h ?_ ?_
  · rw [List.Nodup,List.pairwise_map]
    exact (lib.ascending t).imp (fun hlt => hlt.ne)
  · intro x
    rw [Option.isSome_iff_exists]
    simp [lib.mem_entries]

theorem picks_extremes (hs : ReadsFrom ctx root) (h : Holds lib S t) {extreme : Set K → K → Prop} {key : Option K}
    (hmem : ∀ s x, extreme s x → x ∈ s) (hunique : ∀ s x y, extreme s x → extreme s y → x = y)
    (hsome : ∀ x, key = some x → extreme (occurring S) x) (hnone : key = none → occurring S = ∅) :
    Picks root (extremal extreme S) (extremes lib ctx t key) := by
  cases key with
  | none =>
    have hX : extremal extreme S = ∅ := by
      rw [Set.eq_empty_iff_forall_notMem]
      rintro i ⟨x,_,hx⟩
      have hx := hmem _ x hx
      rw [hnone rfl] at hx
      exact hx
    rw [hX]
    exact ⟨by simp [extremes],by simp [extremes]⟩
  | some x =>
    have hX : extremal extreme S = withKey S x := by
      ext i
      constructor
      · rintro ⟨y,hi,hy⟩
        rw [hunique _ x y (hsome x rfl) hy]
        exact hi
      · exact fun hi => ⟨x,hi,hsome x rfl⟩
    rw [hX]
    exact picks_items hs h x

theorem chooses_extreme1 {X : Set (BitVec 64)} {key : Option K} (hp : Picks root X (extremes lib ctx t key))
    (hkey : ∀ k, key = some k → ∃ set, lib.get t k = some set) :
    ∃ r, extreme1 lib ctx t key = .ok r ∧ Chooses Id.Unsigned root X r := by
  obtain ⟨r,hr,hnone,hmem⟩ := extreme1_spec ctx hkey
  refine ⟨r,hr,?_,fun it hit => (hp.mem it).mp (hmem it hit)⟩
  rw [hnone]
  constructor
  · intro he
    rw [Set.eq_empty_iff_forall_notMem]
    intro i hi
    have hit := (hp.mem ⟨Id.fromLong ⟨i,true⟩,root i⟩).mpr ⟨rfl,hi,rfl⟩
    rw [he] at hit
    exact List.not_mem_nil hit
  · intro hX
    rw [hX] at hp
    exact hp.of_empty

theorem mem_bucket_item (hs : ReadsFrom ctx root) (h : Holds lib S t) {lo hi : K} {p : K × IdSet}
    (hp : p ∈ inRange lib t lo hi) (it : Item Out) : it ∈ p.2.values.map ctx.item ↔
      it.id.Unsigned ∧ S it.id.bits = some p.1 ∧ it.value = root it.id.bits := by
  rw [mem_values_item hs,mem_bucket_iff h hp]

theorem picks_buckets (hs : ReadsFrom ctx root) (h : Holds lib S t) {lo hi : K} {ps : List (K × IdSet)}
    (hps : ps.Sublist (inRange lib t lo hi)) :
    Picks root {i | ∃ p ∈ ps, S i = some p.1} (ps.flatMap (fun p => p.2.values.map ctx.item)) ∧
      Ascends S (ps.flatMap (fun p => p.2.values.map ctx.item)) := by
  have hblock : ∀ p ∈ ps, ∀ it, it ∈ p.2.values.map ctx.item ↔
      it.id.Unsigned ∧ S it.id.bits = some p.1 ∧ it.value = root it.id.bits :=
    fun p hp => mem_bucket_item hs h (hps.subset hp)
  have hasc : ps.Pairwise (fun p q => p.1 < q.1) := inRange_ascending.sublist hps
  refine ⟨⟨?_,?_⟩,?_⟩
  · rw [List.map_flatMap,List.nodup_flatMap]
    refine ⟨fun p _ => (picks_set hs p.2).once,?_⟩
    refine hasc.imp_of_mem ?_
    intro p q hp hq hlt id hip hiq
    obtain ⟨a,ha,rfl⟩ := List.mem_map.mp hip
    obtain ⟨b,hb,hab⟩ := List.mem_map.mp hiq
    have hka := ((hblock p hp a).mp ha).2.1
    have hkb := ((hblock q hq b).mp hb).2.1
    rw [hab,hka] at hkb
    exact hlt.ne (Option.some.inj hkb)
  · intro it
    rw [List.mem_flatMap]
    constructor
    · rintro ⟨p,hp,hit⟩
      obtain ⟨hu,hk,hv⟩ := (hblock p hp it).mp hit
      exact ⟨hu,⟨p,hp,hk⟩,hv⟩
    · rintro ⟨hu,⟨p,hp,hk⟩,hv⟩
      exact ⟨p,hp,(hblock p hp it).mpr ⟨hu,hk,hv⟩⟩
  · rw [Ascends,List.pairwise_flatMap]
    refine ⟨?_,?_⟩
    · intro p hp
      refine List.pairwise_of_forall_mem_list ?_
      intro a ha b hb x y hx hy
      rw [((hblock p hp a).mp ha).2.1] at hx
      rw [((hblock p hp b).mp hb).2.1,hx] at hy
      exact (Option.some.inj hy).le
    · refine hasc.imp_of_mem ?_
      intro p q hp hq hlt a ha b hb x y hx hy
      rw [((hblock p hp a).mp ha).2.1] at hx
      rw [((hblock q hq b).mp hb).2.1] at hy
      rw [← Option.some.inj hx,← Option.some.inj hy]
      exact hlt.le

theorem window_eq (h : Holds lib S t) (lo hi : K) (limit : Option ℕ) : window S lo hi limit =
    {i | ∃ p ∈ limit.elim (inRange lib t lo hi) (fun n => (inRange lib t lo hi).take n), S i = some p.1} := by
  have hwithin {i : BitVec 64} {x : K} (hx : S i = some x) (hlo : lo ≤ x) (hhi : x ≤ hi) :
      ∃ p ∈ inRange lib t lo hi, p.1 = x := exists_inRange h hx hlo hhi
  ext i
  cases limit with
  | none =>
    constructor
    · rintro ⟨x,hx,hlo,hhi,_⟩
      obtain ⟨p,hp,rfl⟩ := hwithin hx hlo hhi
      exact ⟨p,hp,hx⟩
    · rintro ⟨p,hp,hx⟩
      obtain ⟨_,hlo,hhi⟩ := mem_inRange.mp hp
      exact ⟨p.1,hx,hlo,hhi,by simp⟩
  | some n =>
    have hrank {p : K × IdSet} (hp : p ∈ inRange lib t lo hi) :
        p ∈ (inRange lib t lo hi).take n ↔ (preceding S lo p.1).ncard < n := by
      rw [List.mem_take_iff_rank inRange_ascending hp,keysBelow_ncard h (mem_inRange.mp hp).2.2]
      rfl
    constructor
    · rintro ⟨x,hx,hlo,hhi,hn⟩
      obtain ⟨p,hp,rfl⟩ := hwithin hx hlo hhi
      exact ⟨p,(hrank hp).mpr (hn n rfl),hx⟩
    · rintro ⟨p,hp,hx⟩
      have hp' := List.mem_of_mem_take hp
      obtain ⟨_,hlo,hhi⟩ := mem_inRange.mp hp'
      refine ⟨p.1,hx,hlo,hhi,?_⟩
      intro m hm
      cases hm
      exact (hrank hp').mp hp

theorem range_means (hs : ReadsFrom ctx root) (h : Holds lib S t) (lo hi : K) (limit : Option ℕ) :
    Picks root (window S lo hi (limit.map lib.stop)) (range lib ctx t lo hi limit) ∧
      Ascends S (range lib ctx t lo hi limit) := by
  rw [window_eq h]
  cases limit with
  | none =>
    rw [(range_eq_flatMap ctx t lo hi).1]
    exact picks_buckets hs h (List.Sublist.refl _)
  | some n =>
    rw [(range_eq_flatMap ctx t lo hi).2]
    exact picks_buckets hs h (List.take_sublist (lib.stop n) _)

end BTreeIndex

namespace Query

theorem run_means (hs : ReadsFrom ctx root) {P : Id → Prop} {In R : Type} {e : UnregisteredIndex In} (q : Query Out e R)
    {S : Contents In} {s : e.State} (hl : e.Lawful) (h : e.Holds P S s) :
    ∃ r, q.run ctx s = .ok r ∧ q.Means P root S r := by
  induction q with
  | hashEq key => exact ⟨_,rfl,picks_items hs h key⟩
  | hashCountDistinct => exact ⟨_,rfl,HashIndex.countDistinct_ncard h⟩
  | btreeEq key => exact ⟨_,rfl,picks_items hs h key⟩
  | btreeCountDistinct => exact ⟨_,rfl,BTreeIndex.countDistinct_ncard h⟩
  | btreeMax => exact ⟨_,rfl,BTreeIndex.picks_extremes hs h (fun _ _ hx => hx.1) (fun _ _ _ hx hy => hx.unique hy)
      (fun _ => BTreeIndex.maxKey_isGreatest h) (BTreeIndex.storedKeys_of_maxKey h)⟩
  | btreeMin => exact ⟨_,rfl,BTreeIndex.picks_extremes hs h (fun _ _ hx => hx.1) (fun _ _ _ hx hy => hx.unique hy)
      (fun _ => BTreeIndex.minKey_isLeast h) (BTreeIndex.storedKeys_of_minKey h)⟩
  | btreeMax1 =>
    exact BTreeIndex.chooses_extreme1 (BTreeIndex.picks_extremes hs h (fun _ _ hx => hx.1)
      (fun _ _ _ hx hy => hx.unique hy) (fun _ => BTreeIndex.maxKey_isGreatest h)
      (BTreeIndex.storedKeys_of_maxKey h)) (fun _ => BTreeIndex.maxKey_stored)
  | btreeMin1 =>
    exact BTreeIndex.chooses_extreme1 (BTreeIndex.picks_extremes hs h (fun _ _ hx => hx.1)
      (fun _ _ _ hx hy => hx.unique hy) (fun _ => BTreeIndex.minKey_isLeast h)
      (BTreeIndex.storedKeys_of_minKey h)) (fun _ => BTreeIndex.minKey_stored)
  | btreeRange lo hi limit => exact ⟨_,rfl,BTreeIndex.range_means hs h lo hi limit⟩
  | uniqueEq key => exact ⟨_,rfl,UniqueHashIndex.withKey_subsingleton h key,UniqueHashIndex.chooses_eq hs h key⟩
  | uniqueCountDistinct => exact ⟨_,rfl,UniqueHashIndex.countDistinct_ncard h⟩
  | @value In Value a => exact ⟨_,rfl,a.means_of_holds hl h⟩
  | premapGet q ih => exact ih hl h
  | @groupHas In G _ _ f inner g =>
    refine ⟨_,rfl,?_⟩
    intro hg
    have hnone : OrderedMap.get s g = none := Option.isNone_iff_eq_none.mp (Option.isSome_eq_false_iff.mp hg)
    exact GroupedIndex.part_empty h hnone
  | @groupGet In G R _ _ f inner g q ih =>
    simp only [run]
    cases hg : OrderedMap.get s g with
    | none => exact ⟨none,rfl,fun _ => GroupedIndex.part_empty h hg,by simp⟩
    | some st =>
      obtain ⟨a,ha,hm⟩ := ih hl (h.inner g st hg)
      refine ⟨some a,by simp [ha,Except.map],by simp,?_⟩
      intro b hb
      cases hb
      exact hm
  | zipHead q ih => exact ih hl.1 h.1
  | zipTail q ih => exact ih hl.2 h.2

end Query

namespace Collection

variable {T R : Type} [JsValue T] {c c' : Collection T}

theorem reads_contents {P : Id → Prop} (hc : c.Consistent P) : ReadsFrom c.context c.contents := get_eq hc.defined

theorem queries_mean_the_contents (h : Reached Call.exec Call.Ordinary new c) {ix : RegisteredIndex T}
    (hix : ix ∈ c.indexes) (hl : ix.expr.Lawful) (q : Query T ix.expr R) :
    ∃ r, q.run c.context ix.state = .ok r ∧ q.Means Id.Unsigned c.contents c.contents r := by
  have hc := ordinary_consistent h
  exact q.run_means (reads_contents hc) hl (hc.tracks ix hix).holds

theorem byTens_ordinary : Reached Call.exec Call.Ordinary new byTens :=
  Procedure.reached_play tensCalls .start (by decide)

def firstTens : Query ℕ tensTree (List (Item ℕ)) := .premapGet (.btreeRange 1 3 (some 1))

theorem first_tens_mean : ∃ (t : (SortedBTree.installed ℕ IdSet).Tree) (log : List (Update ℕ)),
    (⟨tensTree,t,log⟩ : RegisteredIndex ℕ) ∈ byTens.indexes ∧
    ∃ r, firstTens.run byTens.context t = .ok r ∧ firstTens.Means Id.Unsigned byTens.contents byTens.contents r := by
  obtain ⟨t,log,hix⟩ := byTens_tree
  exact ⟨t,log,hix,queries_mean_the_contents byTens_ordinary hix trivial firstTens⟩

end Collection

end ComposableIndexes
