import ComposableIndexes.Abstract.Table

namespace ComposableIndexes

namespace Collection

variable {T : Type} [JsValue T] {c c' : Collection T} {calls calls' : List (Call T)}

omit [JsValue T] in
theorem plain_of_mutates (h : ∀ call ∈ calls.filter Call.mutates, call.Plain) : ∀ call ∈ calls, call.Plain := by
  intro call hcall
  cases call with
  | registerIndex e => trivial
  | _ => exact h _ (List.mem_filter.mpr ⟨hcall,rfl⟩)

-- Neither the indexes registered nor the exceptions they throw change what is stored.
theorem data_independent_of_indexes (hlast : c.last = c'.last) (hstore : c.store = c'.store)
    (hsame : calls.filter Call.mutates = calls'.filter Call.mutates) (hp : ∀ call ∈ calls, call.Plain) :
    (Procedure.play Call.exec calls c).2.last = (Procedure.play Call.exec calls' c').2.last ∧
    (Procedure.play Call.exec calls c).2.store = (Procedure.play Call.exec calls' c').2.store := by
  have hp' : ∀ call ∈ calls', call.Plain := by
    refine plain_of_mutates ?_
    rw [← hsame]
    exact fun call hcall => hp call (List.mem_filter.mp hcall).1
  have ht : c.table = c'.table := by rw [table,table,hlast,hstore]
  have hplay : (Procedure.play Call.exec calls c).2.table = (Procedure.play Call.exec calls' c').2.table := by
    rw [play_table hp,play_table hp',Call.foldl_write_mutates,hsame,ht,← Call.foldl_write_mutates]
  exact ⟨congrArg Table.last hplay,congrArg Table.store hplay⟩

def keyedFive : Collection ℕ := (Procedure.play Call.exec [.registerIndex (.premap some .uniqueHashIndex),.add 5] new).2

def bareFive : Collection ℕ := (Procedure.play Call.exec [.add 5] new).2

def moreFives : List (Call ℕ) := [.add 5,.set (Id.fromLong ⟨9,true⟩) 5,.delete (Id.fromLong ⟨1,true⟩),.add 5]

def moreFivesCounted : List (Call ℕ) := .registerIndex .hashIndex :: moreFives

theorem rejected_fives_are_stored :
    (Procedure.play Call.exec moreFives keyedFive).2.store = (Procedure.play Call.exec moreFivesCounted bareFive).2.store :=
  (data_independent_of_indexes rfl rfl rfl (by simp [moreFives,Call.Plain])).2

theorem calls_write_the_table (ha : Procedure.Accepted Call.exec (fun _ _ => True) calls new) {call : Call T}
    (h : call.Plain ∨ Procedure.Accepted Call.exec Call.Proper calls new) :
    (call.exec (Procedure.play Call.exec calls new).2).state.table =
      (calls ++ [call]).foldl (fun t call => call.write t) ⟨Id.fromLong Long.uzero,IdMap.new⟩ := by
  have hun : call.Unhindered (Procedure.play Call.exec calls new).2 := by
    rcases h with hp | hp
    · exact hp.unhindered _
    · exact unhindered (proper_consistent (Procedure.reached_play calls .start hp)) call
  rw [List.foldl_append,exec_table hun,accepted_table ha]
  rfl

def fiveAndSeven : List (Call ℕ) := [.registerIndex (.premap some .uniqueHashIndex),.add 5,.add 7]

def sevenAgain : Call ℕ := .adjust (Id.fromLong ⟨1,true⟩) (fun _ => 7)

theorem rejected_adjustment_is_written : (sevenAgain.exec (Procedure.play Call.exec fiveAndSeven new).2).state.table =
    (fiveAndSeven ++ [sevenAgain]).foldl (fun t call => call.write t) ⟨Id.fromLong Long.uzero,IdMap.new⟩ :=
  calls_write_the_table (by decide) (.inr (by decide))

end Collection

end ComposableIndexes
