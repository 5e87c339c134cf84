import PhaseLock.OwnWrites
import PhaseLock.ScanMatches

namespace PhaseLock
namespace Scan
open SkipScan Texts

theorem picked_reverse (rows : List (Bytes × ν)) (p : Pattern) : picked rows p true none = (picked rows p false none).reverse := by
  simp [picked,ahead,beyond]

-- A scan's walk ends and visits exactly the keys past its start that its pattern is for,
-- each once and in walk order, just where no key it stands at is misplaced before one of
-- them.  While the upper bounds of a walk in reverse are plain, that is where no key past
-- the start is.
theorem scans_visit {p : Pattern} (kv : OrderedMap Key Bytes) (made : fromJs kp = .ok p) (reverse : Bool)
    (after : Option Bytes) (budget : Nat) :
    (Faithful (stored kv) p reverse after budget ↔ Untangled (stored kv) p reverse after) ∧
      (Tidy (stored kv) p reverse after → Untangled (stored kv) p reverse after) ∧
      ((reverse = true → ∀ field ∈ p.fields, field.plainAbove = true) →
        Untangled (stored kv) p reverse after → Tidy (stored kv) p reverse after) ∧
      (∀ key, p.picks key = true ↔ kp.Matches key) ∧
      picked (stored kv) p true none = (picked (stored kv) p false none).reverse := by
  have formed := fromJs_formed made
  have sorted := stored_sorted kv
  exact ⟨faithful_untangled sorted formed reverse after budget,Tidy.untangled sorted,
    fun plain => Untangled.tidy sorted formed plain,picks_matches made,picked_reverse _ p⟩

namespace Sample

def text (s : String) : Bytes := Mp.utf8 s.toList

-- The slices of one team, whatever their topic.
def team : KeyPattern Bytes := ⟨some (.family (text "chat") [.eq (text "a"),.any]),none,[]⟩

def teamPattern : Pattern :=
  ⟨text "chat:",[.value {lo:=some (text "a"),hi:=some (text "a"),single:=true,sep:=comma},.value {sep:=bang}],false⟩

def store (keys : List String) : OrderedMap Key Bytes := keys.foldl (fun kv key => kv.set key.toList [0xc0]) ∅

end Sample

theorem scans_visit_sample :
    Faithful (stored (Sample.store ["chat:b,x!m","chat:a,x!m","chat:a,y!m","users!u"])) Sample.teamPattern true none
      scanStepBudget :=
  (@scans_visit Sample.team Sample.teamPattern (Sample.store ["chat:b,x!m","chat:a,x!m","chat:a,y!m","users!u"]) (by decide +kernel)
    true none scanStepBudget).1.mpr (by decide +kernel)

-- A slice of the family with fewer parameters ends the walk before the slices looked for.
theorem fewer_parameters_end_walk :
    ["chat:a!m","chat:a,x!m"].all (fun key => keyWritable key.toList) = true ∧
      fromJs Sample.team = .ok Sample.teamPattern ∧
      (picked (stored (Sample.store ["chat:a!m","chat:a,x!m"])) Sample.teamPattern false none).map Prod.fst =
        [Sample.text "chat:a,x!m"] ∧
      walk (stored (Sample.store ["chat:a!m","chat:a,x!m"])) Sample.teamPattern false none scanStepBudget collect 3 [] =
        some (.ok (),[]) ∧
      ¬Faithful (stored (Sample.store ["chat:a!m","chat:a,x!m"])) Sample.teamPattern false none scanStepBudget := by
  have made : fromJs Sample.team = .ok Sample.teamPattern := by decide +kernel
  refine ⟨by decide +kernel,made,by decide +kernel,by decide +kernel,fun faithful => ?_⟩
  have untangled := (faithful_untangled (stored_sorted _) (fromJs_formed made) false none scanStepBudget).mp faithful
  exact absurd untangled (by decide +kernel)

end Scan

namespace Natives
open Scan

-- A get through a call's buffer is a get of the store its writes leave.  A scan is a scan of
-- that store exactly where the walks of the two stores agree on the keys they pass over, and
-- so where neither store is tangled.  Batch by batch, with writes between, nothing is handed
-- out twice; and where the store is not tangled past its start, a batch answers the first
-- rows picked there of the store as the writes leave it, and leaves out none that is not past
-- its next.
theorem reads_see_writes (kv : OrderedMap Key Bytes) (ops : List Write) :
    (∀ (τ ν : Type) (reg : Registry τ ν) (track : Option ReadSet) (key : Key) (type : Bytes),
      nativeGet reg (some (WriteBuffer.writes ops)) kv track key type = nativeGet reg none (applyWrites kv ops) track key type) ∧
    (∀ kp p reverse after, fromJs kp = .ok p → (SameScans kv ops kp reverse after ↔ Agree kv ops p reverse after) ∧
      (Untangled (storeRows kv) p reverse after → Untangled (storeRows (applyWrites kv ops)) p reverse after →
        Agree kv ops p reverse after)) ∧
    ∀ (τ ν : Type) (reg : Registry τ ν) (budget : Nat) (kp : KeyPattern Bytes) (p : Pattern) (values : Option Bytes)
      (reverse : Bool) (limit : Nat) (after : Option Bytes) (between : List (List Write)), fromJs kp = .ok p →
      (∀ b ∈ scanRun reg kv budget kp values reverse limit ops after between,
        Untangled (storeRows kv) p reverse b.after → b.Exact p reverse limit ∧
          ∀ x ∈ picked (storeRows b.store) p reverse b.after,
            x.1 ∈ handed b ∨ ∃ key, b.next = some key ∧ before reverse (Mp.utf8 key) x.1 = true) ∧
      ((scanRun reg kv budget kp values reverse limit ops after between).flatMap handed).Pairwise
        (fun x y => before reverse x y = true) := by
  refine ⟨?_,?_,?_⟩
  · intro τ ν reg track key type
    simp only [nativeGet,answer_applied]
  · intro kp p reverse after made
    have formed := fromJs_formed made
    refine ⟨(sameScans_seen kv ops made reverse after).trans (seen_agree kv ops formed),fun here there => ?_⟩
    exact (seen_agree kv ops formed).mp ((seen_untangled kv ops formed here).trans (seen_plain _ formed there).symm)
  · intro τ ν reg budget kp p values reverse limit after between made
    refine ⟨fun b member clear => ?_,(scanRun_ordered reg kv budget made values reverse limit ops after between).2⟩
    obtain ⟨positive,done,store,first⟩ := scanRun_first reg kv budget made values reverse limit ops after between b member
    have exact_ : b.Exact p reverse limit := by
      rw [seen_untangled kv done (fromJs_formed made) clear,← store] at first
      exact first
    exact ⟨exact_,fun x inside => exact_.complete (picked_past b.store p reverse b.after) positive inside⟩

theorem reads_see_writes_sample :
    SameScans (Sample.store ["chat:a,x!m","chat:b,x!m","users!u"]) [.set "chat:a,y!m".toList [0xc0],.del "chat:a,x!m".toList]
      Sample.team true none := by
  have made : fromJs Sample.team = .ok Sample.teamPattern := by decide +kernel
  obtain ⟨exactly,enough⟩ := (reads_see_writes (Sample.store ["chat:a,x!m","chat:b,x!m","users!u"])
    [.set "chat:a,y!m".toList [0xc0],.del "chat:a,x!m".toList]).2.1 Sample.team Sample.teamPattern true none made
  exact exactly.mpr (enough (by decide +kernel) (by decide +kernel))

-- A slice written with fewer parameters hides from a scan of the store what a scan through
-- the buffer hands out.
theorem buffered_slice_hides_rows :
    keyWritable "chat:a!m".toList = true ∧
      ¬SameScans (Sample.store ["chat:a,x!m"]) [.set "chat:a!m".toList [0xc0]] Sample.team false none := by
  refine ⟨by decide +kernel,fun same => ?_⟩
  have made : fromJs Sample.team = .ok Sample.teamPattern := by decide +kernel
  have rows := (sameScans_seen _ _ made false none).mp same
  have first : seen (some (WriteBuffer.writes [.set "chat:a!m".toList [0xc0]])) (Sample.store ["chat:a,x!m"])
      Sample.teamPattern false none ≠ [] := by
    rw [seen_untangled _ _ (fromJs_formed made) (by decide +kernel)]
    decide +kernel
  have second : seen none (applyWrites (Sample.store ["chat:a,x!m"]) [.set "chat:a!m".toList [0xc0]]) Sample.teamPattern false
      none = [] := by
    simp only [seen]
    have start_ : start (storeRows (applyWrites (Sample.store ["chat:a,x!m"]) [.set "chat:a!m".toList [0xc0]]))
        Sample.teamPattern false none = [row ("chat:a!m".toList,[0xc0]),row ("chat:a,x!m".toList,[0xc0])] := by decide +kernel
    have done : Sample.teamPattern.stand false (row ("chat:a!m".toList,[0xc0])).1 = .done := by
      have placed : Sample.teamPattern.place (row ("chat:a!m".toList,[0xc0])).1 false = .done := by decide +kernel
      rw [Pattern.stand,placed]
      rfl
    rw [start_,SkipScan.visited,done]
  exact first (rows.trans second)

end Natives
end PhaseLock
