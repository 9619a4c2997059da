import NasTools.Model.Cli.GitPush

/-! An import of git objects writes all its questions before it reads any answer. -/

namespace NasTools

open Pipes

/-- What an import has collected in the end is every answer, in the order it asked. -/
theorem import_collects {a b ahead : Nat} {wanted : List (GitOid × CatFile)} {s : State UInt8}
    (reached : Reaches a b ahead (start (catFileExchanges wanted)) s) (done : s.done = true) :
    s.collected = wanted.flatMap (fun (oid, found) => found.answer oid) := by
  rw [reached.sound.all_collected done, catFileExchanges, List.map_map, List.flatMap]
  rfl

/--
An import blocks git and itself where the answers so far outgrow one pipe and the
questions left the other.
-/
theorem import_deadlocks_iff (a b ahead : ℕ+) (wanted : List (GitOid × CatFile)) :
    (∃ s, Reaches a b ahead (start (catFileExchanges wanted)) s ∧ s.Deadlocked a b) ↔
      ∃ front later, wanted = front ++ later ∧ b < answerBytes front ∧
        a < oidLineLen * later.length := by
  -- The library's condition, with the lengths of git's lines and answers put in.
  rw [deadlock_iff]
  constructor
  · intro found
    obtain ⟨front, later, parted, beyond, behind⟩ := found
    obtain ⟨first, last, rfl, rfl, rfl⟩ := List.map_eq_append_iff.mp parted
    have answers := length_answers first
    have questions := length_oidLines last
    rw [catFileExchanges] at answers questions
    rw [answers] at beyond
    rw [questions] at behind
    exact ⟨first, last, rfl, beyond, behind⟩
  · intro found
    obtain ⟨front, later, rfl, beyond, behind⟩ := found
    rw [← length_answers] at beyond
    rw [← length_oidLines] at behind
    exact ⟨catFileExchanges front, catFileExchanges later, List.map_append, beyond, behind⟩

/--
An import never deadlocks exactly when, wherever its objects are parted, the answers to the first
ones fit into git's output pipe or the questions for the others into its input pipe.

That git reads ahead helps only as long as the import has written more than git has asked for yet:
a git that is fast enough finds one question in the pipe, and reads no further.
-/
theorem import_never_deadlocks_iff (a b ahead : ℕ+) (wanted : List (GitOid × CatFile)) :
    (∀ s, Reaches a b ahead (start (catFileExchanges wanted)) s → ¬s.Deadlocked a b) ↔
      ∀ front later, wanted = front ++ later → answerBytes front ≤ b ∨
        oidLineLen * later.length ≤ a := by
  -- Where no cut overruns both pipes no state is stuck, and the other way round.
  have opposite := import_deadlocks_iff a b ahead wanted
  constructor
  · intro never front later parted
    by_contra overrun
    rw [not_or, Nat.not_le, Nat.not_le] at overrun
    obtain ⟨s, reached, deadlocked⟩ := opposite.mpr ⟨front, later, parted, overrun.1, overrun.2⟩
    exact never s reached deadlocked
  · intro fits s reached deadlocked
    obtain ⟨front, later, parted, beyond, behind⟩ := opposite.mp ⟨s, reached, deadlocked⟩
    rcases fits front later parted with inside | inside
    · exact absurd beyond (Nat.not_lt.mpr inside)
    · exact absurd behind (Nat.not_lt.mpr inside)

/--
No run of an import comes to its end where the questions fit neither into their pipe
nor into git's buffer.

This holds however fast either side is, with git reading as much ahead as it can.
-/
theorem import_never_ends {a b ahead : Nat} {front later : List (GitOid × CatFile)}
    {s : State UInt8} (reached : Reaches a b ahead (start (catFileExchanges (front ++ later))) s)
    (beyond : b < answerBytes front) (behind : a + ahead < oidLineLen * later.length) :
    s.done = false := by
  rw [← length_answers] at beyond
  rw [← length_oidLines] at behind
  rw [catFileExchanges, List.map_append] at reached
  exact reached.never_done beyond behind

/-- The name of the object with a number. -/
def numberedOid (n : Nat) : GitOid := ⟨natToLe gitOidLen n, natToLe_length gitOidLen n⟩

/-- A file of some bytes. -/
def fileOf (size : Nat) : CatFile := .object .blob (List.replicate size 0x61)

/-- The small files of a history, by their numbers. -/
def oneByteFiles (count : Nat) : List (GitOid × CatFile) :=
  (List.range count).map fun n => (numberedOid (n + 1), fileOf 1)

/-- A file of 64 KiB, and five thousand small ones after it. -/
def longHistory : List (GitOid × CatFile) := (numberedOid 0, fileOf 65536) :: oneByteFiles 5000

/-- Numbered names are apart. -/
theorem numberedOid_injOn : Set.InjOn numberedOid (Set.Iio 6000) := by
  -- The names are numbers of a fixed width, in which six thousand has room.
  intro m small n small' same
  rw [Set.mem_Iio] at small small'
  have room : 6000 < 256 ^ gitOidLen := by
    rw [gitOidLen]
    norm_num
  -- The number can be read from the name again.
  have spelled : natOfLe (natToLe gitOidLen m) = natOfLe (natToLe gitOidLen n) :=
    congrArg natOfLe (congrArg FixedBytes.bytes same)
  rw [natOfLe_natToLe gitOidLen m (small.trans room),
    natOfLe_natToLe gitOidLen n (small'.trans room)] at spelled
  exact spelled

/-- No object of the long history is asked for twice. -/
theorem longHistory_nodup : (longHistory.map Prod.fst).Nodup := by
  -- The ids are numbered, and the numbers are apart.
  rw [longHistory, oneByteFiles, List.map_cons, List.map_map, List.nodup_cons]
  constructor
  · intro member
    obtain ⟨n, there, same⟩ := List.mem_map.mp member
    rw [List.mem_range] at there
    have zero := numberedOid_injOn (Set.mem_Iio.mpr (by omega)) (Set.mem_Iio.mpr (by omega)) same
    exact absurd zero (by omega)
  · apply List.Nodup.map_on _ List.nodup_range
    intro m first n second same
    rw [List.mem_range] at first second
    have next := numberedOid_injOn (Set.mem_Iio.mpr (by omega)) (Set.mem_Iio.mpr (by omega)) same
    omega

/-- The answer about the large file alone outgrows the pipe. -/
theorem large_outgrows : 65536 < answerBytes [(numberedOid 0, fileOf 65536)] := by
  have long := content_length_le_answer (numberedOid 0) .blob (List.replicate 65536 0x61)
  rw [List.length_replicate] at long
  rw [answerBytes, List.map_singleton, List.sum_singleton]
  exact long

/--
With pipes of 64 KiB each, the long history brings the import and git to a standstill.

With a buffer of 4 KiB this is so in every run: none comes to its end.
-/
theorem long_history_deadlocks :
    (longHistory.map Prod.fst).Nodup ∧
      (∃ s, Reaches 65536 65536 4096 (start (catFileExchanges longHistory)) s ∧
        s.Deadlocked 65536 65536) ∧
      ∀ s, Reaches 65536 65536 4096 (start (catFileExchanges longHistory)) s → s.done = false := by
  -- The first answer does not fit, and the lines behind it do not fit either.
  have parted : longHistory = [(numberedOid 0, fileOf 65536)] ++ oneByteFiles 5000 := by
    rw [longHistory, List.singleton_append]
  -- Lines of git are 41 bytes, so 5000 of them outgrow the pipe and what git has read ahead.
  have lines : 65536 + 4096 < oidLineLen * (oneByteFiles 5000).length := by
    rw [oneByteFiles, List.length_map, List.length_range, oidLineLen, gitOidLen]
    norm_num
  refine ⟨longHistory_nodup, ?_, ?_⟩
  · apply (import_deadlocks_iff ⟨65536, by norm_num⟩ ⟨65536, by norm_num⟩ ⟨4096, by norm_num⟩
      longHistory).mpr
    exact ⟨_, _, parted, large_outgrows, by simp only [PNat.mk_coe]; omega⟩
  · intro s reached
    rw [parted] at reached
    exact import_never_ends reached large_outgrows lines

end NasTools
