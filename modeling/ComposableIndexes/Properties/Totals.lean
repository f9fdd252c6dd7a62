import ComposableIndexes.Abstract.Delivery

namespace ComposableIndexes

namespace FoldArgs

variable {In I S W : Type}

def comap (args : FoldArgs I S W) (g : In → I) : FoldArgs In S W where
  init := args.init
  add state value := args.add state (g value)
  update state oldValue newValue := args.update state (g oldValue) (g newValue)
  delete state oldValue := args.delete state (g oldValue)
  result := args.result

theorem LawfulOn.comap {args : FoldArgs I S W} {A : Set I} (h : args.LawfulOn A) {g : In → I} {B : Set In}
    (hg : ∀ b ∈ B, g b ∈ A) : (args.comap g).LawfulOn B :=
  ⟨fun s a b ha hb => h.add_comm s _ _ (hg a ha) (hg b hb),fun s a ha => h.delete_add s _ (hg a ha),
    fun s a b ha hb => h.update_eq s _ _ (hg a ha) (hg b hb)⟩

theorem comap_folds {Out : Type} (args : FoldArgs I S W) (g : In → I) :
    Folds (PremapIndex.index (fun x => some (g x)) (FoldIndex.index args) : Index In Out S) id args.init
      (args.comap g).step := by
  have hstep : (fun u a => (filterMapUpdate (fun x => some (g x)) u).elim a (fun w => args.step w a)) =
      (args.comap g).step := by
    funext u a
    cases u <;> rfl
  rw [← hstep]
  exact PremapIndex.folds _ args.folds

end FoldArgs

section Groups

variable {G Return : Type} [Group G]

def groupArgs (result : G → Return) : FoldArgs G G Return where
  init := 1
  add state value := state * value
  update state oldValue newValue := state * (oldValue⁻¹ * newValue)
  delete state oldValue := state * oldValue⁻¹
  result := result

def groupIndex (result : G → Return) : UnregisteredAggregateIndex G Return :=
  algebraicGroupIndex 1 (fun a b => a * b) (fun a => a⁻¹) result

theorem groupArgs_lawfulOn (result : G → Return) {V : Set G} (hV : ∀ a ∈ V, ∀ b ∈ V, a * b = b * a) :
    (groupArgs result).LawfulOn V := by
  refine ⟨?_,?_,?_⟩
  · intro s a b ha hb
    simp only [groupArgs,mul_assoc,hV a ha b hb]
  · intro s a _
    exact mul_inv_cancel_right s a
  · intro s a b _ _
    exact (mul_assoc s a⁻¹ b).symm

theorem foldl_groupArgs (result : G → Return) (l : List G) :
    l.foldl (groupArgs result).add (groupArgs result).init = l.prod := List.prod_eq_foldl.symm

end Groups

namespace JsNumber

def IsFinite : JsNumber → Prop
  | .finite _ => True
  | _ => False

instance : (x : JsNumber) → Decidable x.IsFinite
  | .finite _ => .isTrue trivial
  | .posInf | .negInf | .nan => .isFalse not_false

def finites : Set JsNumber := {x | x.IsFinite}

instance : DecidablePred (fun x => x ∈ finites) := fun x => inferInstanceAs (Decidable x.IsFinite)

theorem mem_finites {x : JsNumber} : x ∈ finites ↔ ∃ q, x = .finite q := by
  cases x <;> simp [finites,IsFinite]

theorem add_finite_comm (s : JsNumber) (p q : ℚ) : (s.add (.finite p)).add (.finite q) = (s.add (.finite q)).add (.finite p) := by
  cases s <;> simp [add,add_right_comm]

theorem add_finite_neg (s : JsNumber) (p : ℚ) : (s.add (.finite p)).add (.neg (.finite p)) = s := by
  cases s <;> simp [add,neg]

theorem add_finite_assoc (s : JsNumber) (p q : ℚ) :
    s.add ((JsNumber.finite p).add (.finite q)) = (s.add (.finite p)).add (.finite q) := by
  cases s <;> simp [add,add_assoc]

def sumArgs : FoldArgs JsNumber JsNumber JsNumber where
  init := .finite 0
  add := add
  update state oldValue newValue := state.add (oldValue.neg.add newValue)
  delete state oldValue := state.add oldValue.neg
  result state := state

theorem sumArgs_lawfulOn : sumArgs.LawfulOn finites := by
  refine ⟨?_,?_,?_⟩
  · intro s a b ha hb
    obtain ⟨p,rfl⟩ := mem_finites.mp ha
    obtain ⟨q,rfl⟩ := mem_finites.mp hb
    exact add_finite_comm s p q
  · intro s a ha
    obtain ⟨p,rfl⟩ := mem_finites.mp ha
    exact add_finite_neg s p
  · intro s a b ha hb
    obtain ⟨p,rfl⟩ := mem_finites.mp ha
    obtain ⟨q,rfl⟩ := mem_finites.mp hb
    exact add_finite_assoc s (-p) q

theorem foldl_sumArgs (qs : List ℚ) : (qs.map JsNumber.finite).foldl sumArgs.add sumArgs.init = .finite qs.sum := by
  rw [List.foldl_map,List.sum_eq_foldl]
  exact List.foldl_hom JsNumber.finite (fun _ _ => rfl)

-- The sum and the number of the values, kept side by side.
def meanArgs : FoldArgs (JsNumber × JsNumber) (JsNumber × JsNumber) JsNumber where
  init := (.finite 0,.finite 0)
  add a b := (a.1.add b.1,a.2.add b.2)
  update state oldValue newValue := (state.1.add (oldValue.1.neg.add newValue.1),state.2.add (oldValue.2.neg.add newValue.2))
  delete state oldValue := (state.1.add oldValue.1.neg,state.2.add oldValue.2.neg)
  result a := a.1.div a.2

theorem meanArgs_lawfulOn : meanArgs.LawfulOn (finites ×ˢ finites) := by
  refine ⟨?_,?_,?_⟩
  · intro s a b ha hb
    exact Prod.ext (sumArgs_lawfulOn.add_comm s.1 a.1 b.1 ha.1 hb.1) (sumArgs_lawfulOn.add_comm s.2 a.2 b.2 ha.2 hb.2)
  · intro s a ha
    exact Prod.ext (sumArgs_lawfulOn.delete_add s.1 a.1 ha.1) (sumArgs_lawfulOn.delete_add s.2 a.2 ha.2)
  · intro s a b ha hb
    exact Prod.ext (sumArgs_lawfulOn.update_eq s.1 a.1 b.1 ha.1 hb.1) (sumArgs_lawfulOn.update_eq s.2 a.2 b.2 ha.2 hb.2)

def counted (x : JsNumber) : JsNumber × JsNumber := (x,.finite 1)

theorem meanArgs_counted_lawfulOn : (meanArgs.comap counted).LawfulOn finites :=
  meanArgs_lawfulOn.comap (fun _ hx => ⟨hx,trivial⟩)

theorem foldl_meanArgs (qs : List ℚ) :
    (qs.map JsNumber.finite).foldl (meanArgs.comap counted).add (meanArgs.comap counted).init =
      (.finite qs.sum,.finite qs.length) := by
  have h (p n : ℚ) : (qs.map JsNumber.finite).foldl (meanArgs.comap counted).add (.finite p,.finite n) =
      (.finite (p + qs.sum),.finite (n + qs.length)) := by
    induction qs generalizing p n with
    | nil => simp
    | cons q qs ih =>
      have hstep : (meanArgs.comap counted).add (.finite p,.finite n) (.finite q) = (.finite (p + q),.finite (n + 1)) := rfl
      rw [List.map_cons,List.foldl_cons,hstep,ih]
      simp only [List.sum_cons,List.length_cons,Nat.cast_add,Nat.cast_one,Prod.mk.injEq,JsNumber.finite.injEq]
      constructor <;> ring
  have h0 := h 0 0
  rwa [zero_add,zero_add] at h0

theorem div_finite {p q : ℚ} (hq : q ≠ 0) : (JsNumber.finite p).div (.finite q) = .finite (p / q) := by
  simp [div,hq]

theorem all_finite {l : List JsNumber} (h : ∀ x ∈ l, x ∈ finites) : ∃ qs : List ℚ, l = qs.map JsNumber.finite := by
  induction l with
  | nil => exact ⟨[],rfl⟩
  | cons x l ih =>
    obtain ⟨hx,hl⟩ := List.forall_mem_cons.mp h
    obtain ⟨q,rfl⟩ := mem_finites.mp hx
    obtain ⟨qs,rfl⟩ := ih hl
    exact ⟨q :: qs,rfl⟩

end JsNumber

def countArgs (In : Type) : FoldArgs In ℤ ℤ where
  init := 0
  add st _ := st + 1
  update st _ _ := st
  delete st _ := st - 1
  result st := st

theorem countArgs_lawful (In : Type) : (countArgs In).Lawful := by
  refine ⟨fun _ _ _ => rfl,?_,?_⟩
  · intro s _
    exact add_sub_cancel_right s 1
  · intro s _ _
    exact (sub_add_cancel s 1).symm

theorem foldl_countArgs {In : Type} (l : List In) : l.foldl (countArgs In).add (countArgs In).init = l.length := by
  have h (n : ℤ) : l.foldl (countArgs In).add n = n + l.length := by
    induction l generalizing n with
    | nil => simp
    | cons a l ih =>
      rw [List.foldl_cons,ih,List.length_cons]
      simp only [countArgs,Nat.cast_add,Nat.cast_one]
      ring
  exact (h 0).trans (zero_add _)

namespace Collection

section Fold

variable {T : Type} [JsValue T] {V : Set T} {c : Collection T} {log : List (Update T)}

theorem reached_properIn (h : Reached Call.exec Call.Proper new c) : Reached Call.exec (Call.ProperIn Set.univ) new c :=
  h.mono (fun c call hok => ⟨hok,call.storesIn_univ c⟩)

theorem fold_total {S W : Type} {args : FoldArgs T S W} (ha : args.LawfulOn V)
    (h : Reached Call.exec (Call.ProperIn V) new c) {s : S}
    (hix : (⟨.foldIndex args,s,log⟩ : RegisteredIndex T) ∈ c.indexes) {l : List T}
    (hp : l.Perm (c.toList.map Prod.snd)) : s = l.foldl args.add args.init :=
  total_of_folds ha h hix id args.folds hp

theorem count_total (h : Reached Call.exec Call.Proper new c) {s : ℤ}
    (hix : (⟨.aggregate countIndex,s,log⟩ : RegisteredIndex T) ∈ c.indexes) : s = c.toList.length := by
  rw [fold_total ((countArgs_lawful T).on Set.univ) (reached_properIn h) hix (List.Perm.refl _),foldl_countArgs,
    List.length_map]

end Fold

section Numbers

open JsNumber (finites sumArgs meanArgs counted)

variable {c : Collection JsNumber} {log : List (Update JsNumber)} {qs : List ℚ}

theorem stored_finite (h : Reached Call.exec (Call.ProperIn finites) new c) :
    ∃ qs : List ℚ, c.toList.map Prod.snd = qs.map JsNumber.finite := by
  refine JsNumber.all_finite ?_
  intro x hx
  have hs := (reached_keeping h).stored
  rw [values_toList] at hs
  exact hs x hx

theorem sum_total (h : Reached Call.exec (Call.ProperIn finites) new c) (hq : c.toList.map Prod.snd = qs.map JsNumber.finite)
    {s : JsNumber} (hix : (⟨.aggregate sumIndex,s,log⟩ : RegisteredIndex JsNumber) ∈ c.indexes) : s = .finite qs.sum := by
  rw [fold_total JsNumber.sumArgs_lawfulOn h hix (List.Perm.refl _),hq,JsNumber.foldl_sumArgs]

theorem mean_total (h : Reached Call.exec (Call.ProperIn finites) new c) (hq : c.toList.map Prod.snd = qs.map JsNumber.finite)
    {s : JsNumber × JsNumber} (hix : (⟨.aggregate arithmeticMeanIndex,s,log⟩ : RegisteredIndex JsNumber) ∈ c.indexes) :
    s = (.finite qs.sum,.finite qs.length) := by
  have ht := total_of_folds JsNumber.meanArgs_counted_lawfulOn h hix id
    (FoldArgs.comap_folds meanArgs counted) (List.Perm.refl _)
  rw [hq,JsNumber.foldl_meanArgs] at ht
  exact ht

end Numbers

theorem lawful_folds_aggregate_items :
    (∀ {T State Return : Type} [JsValue T] (args : FoldArgs T State Return), args.Lawful → ∀ c : Collection T,
      Reached Call.exec Call.Proper new c → ∀ (s : State) log,
      (⟨.foldIndex args,s,log⟩ : RegisteredIndex T) ∈ c.indexes → ∀ l : List T, l.Perm (c.toList.map Prod.snd) →
      (UnregisteredAggregateIndex.fold args).value s = args.result (l.foldl args.add args.init)) ∧
    (∀ {G Return : Type} [CommGroup G] [JsValue G] (result : G → Return) (c : Collection G),
      Reached Call.exec Call.Proper new c → ∀ (s : G) log,
      (⟨.aggregate (groupIndex result),s,log⟩ : RegisteredIndex G) ∈ c.indexes →
      (groupIndex result).value s = result (c.toList.map Prod.snd).prod) ∧
    (∀ {T : Type} [JsValue T] (c : Collection T), Reached Call.exec Call.Proper new c → ∀ (s : ℤ) log,
      (⟨.aggregate countIndex,s,log⟩ : RegisteredIndex T) ∈ c.indexes →
      (countIndex : UnregisteredAggregateIndex T ℤ).value s = c.toList.length) ∧
    ∀ c : Collection JsNumber, Reached Call.exec (Call.ProperIn JsNumber.finites) new c →
      ∃ qs : List ℚ, c.toList.map Prod.snd = qs.map JsNumber.finite ∧
        (∀ (s : JsNumber) log, (⟨.aggregate sumIndex,s,log⟩ : RegisteredIndex JsNumber) ∈ c.indexes →
          sumIndex.value s = .finite qs.sum) ∧
        (∀ (s : ℤ) log, (⟨.aggregate countIndex,s,log⟩ : RegisteredIndex JsNumber) ∈ c.indexes →
          (countIndex : UnregisteredAggregateIndex JsNumber ℤ).value s = qs.length) ∧
        ∀ (s : JsNumber × JsNumber) log, (⟨.aggregate arithmeticMeanIndex,s,log⟩ : RegisteredIndex JsNumber) ∈ c.indexes →
          qs ≠ [] → arithmeticMeanIndex.value s = .finite (qs.sum / qs.length) := by
  refine ⟨?_,?_,?_,?_⟩
  · intro T State Return _ args ha c h s log hix l hp
    exact congrArg args.result (fold_total (ha.on Set.univ) (reached_properIn h) hix hp)
  · intro G Return _ _ result c h s log hix
    have ha := groupArgs_lawfulOn result (V := Set.univ) (fun a _ b _ => mul_comm a b)
    have ht := fold_total ha (reached_properIn h) hix (List.Perm.refl _)
    rw [foldl_groupArgs] at ht
    exact congrArg result ht
  · intro T _ c h s log hix
    exact count_total h hix
  · intro c h
    obtain ⟨qs,hq⟩ := stored_finite h
    refine ⟨qs,hq,fun s log hix => sum_total h hq hix,?_,?_⟩
    · intro s log hix
      have hproper : Reached Call.exec Call.Proper new c := h.mono (fun _ _ hok => hok.toProper)
      have hlen := congrArg List.length hq
      rw [List.length_map,List.length_map] at hlen
      rw [← hlen]
      exact count_total hproper hix
    · intro s log hix hne
      have hlen : (qs.length : ℚ) ≠ 0 := by
        simpa [List.length_eq_zero_iff] using hne
      have ht := mean_total h hq hix
      rw [ht]
      exact JsNumber.div_finite hlen

def countedCalls : List (Call ℕ) :=
  [.registerIndex (.foldIndex (countArgs ℕ)),.add 5,.add 6,.set (Id.fromLong ⟨1,true⟩) 7,.delete (Id.fromLong ⟨2,true⟩)]

def counted : Collection ℕ := (Procedure.play Call.exec countedCalls new).2

theorem counted_reached : Reached Call.exec Call.Proper new counted :=
  Procedure.reached_play countedCalls .start (by decide)

instance : JsValue (Multiplicative ℤ) := inferInstanceAs (JsValue ℤ)

def shiftCalls : List (Call (Multiplicative ℤ)) :=
  [.registerIndex (.aggregate (groupIndex (fun a => a))),.add (.ofAdd 5),.add (.ofAdd 6),.delete (Id.fromLong ⟨1,true⟩)]

def shifted : Collection (Multiplicative ℤ) := (Procedure.play Call.exec shiftCalls new).2

theorem shifted_reached : Reached Call.exec Call.Proper new shifted :=
  Procedure.reached_play shiftCalls .start (by decide)

def numberCalls : List (Call JsNumber) :=
  [.registerIndex (.aggregate sumIndex),.add (.finite 5),.add (.finite 6),.set (Id.fromLong ⟨1,true⟩) (.finite 2)]

def numbers : Collection JsNumber := (Procedure.play Call.exec numberCalls new).2

theorem numbers_reached : Reached Call.exec (Call.ProperIn JsNumber.finites) new numbers :=
  Procedure.reached_play numberCalls .start (by decide)

theorem totals_after_changes :
    (∃ (s : ℤ) (log : _), (⟨.foldIndex (countArgs ℕ),s,log⟩ : RegisteredIndex ℕ) ∈ counted.indexes ∧
      (UnregisteredAggregateIndex.fold (countArgs ℕ)).value s = ([7] : List ℕ).foldl (countArgs ℕ).add 0) ∧
    (∃ (s : Multiplicative ℤ) (log : _),
      (⟨.aggregate (groupIndex (fun a => a)),s,log⟩ : RegisteredIndex (Multiplicative ℤ)) ∈ shifted.indexes ∧
      (groupIndex (fun a : Multiplicative ℤ => a)).value s = (shifted.toList.map Prod.snd).prod) ∧
    ∃ qs : List ℚ, numbers.toList.map Prod.snd = qs.map JsNumber.finite ∧ ∃ (s : JsNumber) (log : _),
      (⟨.aggregate sumIndex,s,log⟩ : RegisteredIndex JsNumber) ∈ numbers.indexes ∧ sumIndex.value s = .finite qs.sum := by
  obtain ⟨hfold,hgroup,_,hnumbers⟩ := lawful_folds_aggregate_items
  refine ⟨⟨_,_,List.mem_singleton.mpr rfl,?_⟩,⟨_,_,List.mem_singleton.mpr rfl,?_⟩,?_⟩
  · exact hfold (countArgs ℕ) (countArgs_lawful ℕ) counted counted_reached _ _ (List.mem_singleton.mpr rfl) [7] (by decide)
  · exact hgroup (fun a => a) shifted shifted_reached _ _ (List.mem_singleton.mpr rfl)
  · obtain ⟨qs,hq,hsum,_⟩ := hnumbers numbers numbers_reached
    exact ⟨qs,hq,_,_,List.mem_singleton.mpr rfl,hsum _ _ (List.mem_singleton.mpr rfl)⟩

def signedCountCalls : List (Call ℕ) :=
  [.registerIndex (.aggregate countIndex),.set (Id.fromLong ⟨BitVec.allOnes 64,false⟩) 5,
    .set (Id.fromLong ⟨BitVec.allOnes 64 - 1,true⟩) 6,.add 7]

def signedCount : Collection ℕ := (Procedure.play Call.exec signedCountCalls new).2

theorem signed_id_counted_twice :
    Procedure.Accepted Call.exec (fun c call => call.DefinedValues ∧ call.BelowTop c) signedCountCalls new ∧
    ∃ (s : ℤ) (log : _), (⟨.aggregate countIndex,s,log⟩ : RegisteredIndex ℕ) ∈ signedCount.indexes ∧
      (countIndex : UnregisteredAggregateIndex ℕ ℤ).value s ≠ signedCount.toList.length :=
  ⟨by decide,_,_,List.mem_singleton.mpr rfl,by decide⟩

end Collection

end ComposableIndexes
