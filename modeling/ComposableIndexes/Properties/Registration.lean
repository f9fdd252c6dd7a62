import ComposableIndexes.Properties.Conflicts

namespace ComposableIndexes

open RegisteredIndex (Obstacle)

namespace Collection

variable {T K G : Type} [JsValue T] [DecidableEq K] [DecidableEq G] [JsKey G] {c : Collection T} {k : T → Option K}
  {g : T → G} {same : T → T → Prop}

def SameKey (k : T → Option K) (v w : T) : Prop := ∃ x, k v = some x ∧ k w = some x

def Duplicates (c : Collection T) (same : T → T → Prop) : Prop :=
  ∃ p ∈ c.toList, ∃ q ∈ c.toList, p ≠ q ∧ same p.2 q.2

omit [JsValue T] in
theorem duplicates_iff : c.Duplicates same ↔
    ∃ i j v w, i ≠ j ∧ c.contents i = some v ∧ c.contents j = some w ∧ same v w := by
  constructor
  · rintro ⟨⟨a,v⟩,hp,⟨b,w⟩,hq,hne,hs⟩
    obtain ⟨ha,hv⟩ := mem_toList.mp hp
    obtain ⟨hb,hw⟩ := mem_toList.mp hq
    refine ⟨a.bits,b.bits,v,w,?_,hv,hw,hs⟩
    intro he
    have hab := Id.eq_of_bits ha hb he
    subst hab
    rw [hv] at hw
    cases hw
    exact hne rfl
  · rintro ⟨i,j,v,w,hne,hv,hw,hs⟩
    refine ⟨(Id.fromLong ⟨i,true⟩,v),mem_toList.mpr ⟨rfl,hv⟩,(Id.fromLong ⟨j,true⟩,w),mem_toList.mpr ⟨rfl,hw⟩,?_,hs⟩
    intro he
    cases he
    exact hne rfl

-- The item that is turned away meets, among the items taken before it, one that it may not stand beside.
omit [JsValue T] in
theorem duplicates_of_obstacle {e : UnregisteredIndex T} {R : Contents T} {id : Id} {v : T}
    (ho : Obstacle e PartialMap.empty c.toList R id v) (hs : ∃ i w, R i = some w ∧ same v w) : c.Duplicates same := by
  obtain ⟨i,w,hw,hsame⟩ := hs
  have hsub := ho.before
  rw [load_toList] at hsub
  refine duplicates_iff.mpr ⟨id.bits,i,v,w,?_,(mem_toList.mp ho.mem).2,hsub i w hw,hsame⟩
  rintro rfl
  rw [ho.absent] at hw
  cases hw

theorem throws_iff_duplicates {e : UnregisteredIndex T}
    (hrejects : ∀ R id v, e.Rejects R (.add id v) → ∃ i w, R i = some w ∧ same v w)
    (hholds : ∀ s, e.Holds (fun _ => True) c.contents s → ¬c.Duplicates same) :
    c.ThrowsConflict (.registerIndex e) ↔ c.Duplicates same := by
  rcases registerIndex_cases (P := fun _ => True) (fun _ _ => trivial) e c with ⟨s,log,hr,ht⟩ | ⟨R,id,v,ho,hr⟩
  · refine iff_of_false ?_ (hholds s ht.holds)
    rintro ⟨_,_,c',hx⟩
    simp only [Call.exec,hr] at hx
    cases hx
  · refine iff_of_true ⟨id,c.context.get id,c,?_⟩ (duplicates_of_obstacle ho (hrejects R id v ho.rejects))
    simp only [Call.exec,hr]
    rfl

omit [JsValue T] in
theorem unique_rejects_add {R : Contents T} {id : Id} {v : T}
    (h : (UnregisteredIndex.premap k .uniqueHashIndex).Rejects R (.add id v)) :
    ∃ i w, R i = some w ∧ SameKey k v w := by
  obtain ⟨x,hx,i,hi⟩ := (unique_clashes_iff (.inl ⟨id,rfl⟩)).mp (.inl h)
  rw [PartialMap.filterMap_apply,Option.bind_eq_some_iff] at hi
  obtain ⟨w,hw,hk⟩ := hi
  exact ⟨i,w,hw,x,hx,hk⟩

omit [JsValue T] in
theorem not_sameKey {P : Id → Prop} {S : Contents T} {s : UniqueHashIndex.State K}
    (hs : UniqueHashIndex.Holds P (S.filterMap k) s) {i j : BitVec 64} {v w : T} (hne : i ≠ j) (hv : S i = some v)
    (hw : S j = some w) : ¬SameKey k v w := by
  rintro ⟨x,hx,hy⟩
  exact hne (UniqueHashIndex.holder_unique hs (k := x) (by simp [hv,hx]) (by simp [hw,hy]))

theorem unique_throws_iff (c : Collection T) (k : T → Option K) :
    c.ThrowsConflict (.registerIndex (.premap k .uniqueHashIndex)) ↔ c.Duplicates (SameKey k) := by
  refine throws_iff_duplicates (fun _ _ _ h => unique_rejects_add h) ?_
  intro s hs hd
  obtain ⟨i,j,v,w,hne,hv,hw,hk⟩ := duplicates_iff.mp hd
  exact not_sameKey hs hne hv hw hk

theorem grouped_unique_throws_iff (c : Collection T) (g : T → G) (k : T → Option K) :
    c.ThrowsConflict (.registerIndex (.group g (.premap k .uniqueHashIndex))) ↔
      c.Duplicates (fun v w => g v = g w ∧ SameKey k v w) := by
  refine throws_iff_duplicates ?_ ?_
  · intro R id v hr
    obtain ⟨i,w,hw,hk⟩ := unique_rejects_add hr
    obtain ⟨hw',hg⟩ := (GroupedIndex.filterMap_part R g (g v) i w).mp hw
    exact ⟨i,w,hw',hg.symm,hk⟩
  · intro s hs hd
    obtain ⟨i,j,v,w,hne,hv,hw,hg,hk⟩ := duplicates_iff.mp hd
    obtain ⟨st,hst⟩ := hs.exists_group hv
    refine not_sameKey (hs.inner (g v) st hst) hne ?_ ?_ hk
    · exact (GroupedIndex.filterMap_part _ g (g v) i v).mpr ⟨hv,rfl⟩
    · exact (GroupedIndex.filterMap_part _ g (g v) j w).mpr ⟨hw,hg.symm⟩

theorem registerIndex_thrown {e : UnregisteredIndex T} {x : Exception T} {c' : Collection T}
    (h : registerIndex e c = .thrown x c') : c' = c ∧ c.ThrowsConflict (.registerIndex e) := by
  rcases registerIndex_cases (P := fun _ => True) (fun _ _ => trivial) e c with ⟨s,log,hr,_⟩ | ⟨R,id,v,_,hr⟩
  · rw [hr] at h
    cases h
  · refine ⟨?_,id,c.context.get id,c,?_⟩
    · rw [hr] at h
      cases h
      rfl
    · simp only [Call.exec,hr]
      rfl

theorem late_unique_registration_exact (c : Collection T) (k : T → Option K) (g : T → G) :
    (c.ThrowsConflict (.registerIndex (.premap k .uniqueHashIndex)) ↔ c.Duplicates (SameKey k)) ∧
    (c.ThrowsConflict (.registerIndex (.group g (.premap k .uniqueHashIndex))) ↔
      c.Duplicates (fun v w => g v = g w ∧ SameKey k v w)) ∧
    ∀ uIndex x c', registerIndex uIndex c = .thrown x c' → c.ThrowsConflict (.registerIndex uIndex) ∧
      SameAnswers c c' ∧ ∀ calls, Procedure.play Call.exec calls c' = Procedure.play Call.exec calls c := by
  refine ⟨unique_throws_iff c k,grouped_unique_throws_iff c g k,?_⟩
  intro uIndex x c' h
  obtain ⟨hc,ht⟩ := registerIndex_thrown h
  subst hc
  exact ⟨ht,sameAnswers_of_eq rfl rfl,fun _ => rfl⟩

def pairCalls : List (Call ℕ) := [.registerIndex (.premap some .hashIndex),.add 5,.add 5]

def pair : Collection ℕ := (Procedure.play Call.exec pairCalls new).2

theorem duplicate_found_too_late : ∃ x c', registerIndex (.premap some .uniqueHashIndex) pair = .thrown x c' ∧
    SameAnswers pair c' :=
  ⟨.conflict (Id.fromLong ⟨2,true⟩) (some 5),pair,rfl,
    ((late_unique_registration_exact pair some (fun v => v)).2.2 (.premap some .uniqueHashIndex) _ _ rfl).2.1⟩

end Collection

end ComposableIndexes
