import PhaseLock.Snapshots
import PhaseLock.Paging

namespace PhaseLock
namespace EditPages
open Mp Paging

-- The log's order: by position, then by slice.
def InOrder (a b : LogRow) : Prop := a.position < b.position ∨ a.position = b.position ∧ utf8 a.slice ≤ utf8 b.slice

instance : DecidableRel InOrder := fun _ _ => inferInstanceAs (Decidable (_ ∨ _))

-- The edits of one slice with after < position < before, of which it has one at a position.
def readSlice (log : List LogRow) (slice : Name) (after before : Nat) : List LogRow :=
  (log.filter fun row => row.slice = slice ∧ after < row.position ∧ row.position < before).insertionSort InOrder

-- The edits of the slices whose names start with a text, and slice names are ASCII, so DEL
-- bounds the empty one.
def readPrefix (log : List LogRow) (text : Bytes) (after before : Nat) : List LogRow :=
  let bound := (prefixBound text).getD [0x7f]
  (log.filter fun row => (after < row.position ∧ row.position < before) ∧ text ≤ utf8 row.slice ∧ utf8 row.slice < bound).insertionSort InOrder

def selected (log : List LogRow) (selector : Name) (after before : Nat) : List LogRow :=
  if Selectors.isPrefixSelector selector then readPrefix log (utf8 selector.dropLast) after before
  else readSlice log selector after before

-- A page's size.
abbrev Size := {n : Nat // 0 < n}

-- A selector's edits between two positions, so many of them and the rest of the last one's
-- position.  A reverse read comes in descending order, and each position's are turned ascending.
def readEdits (log : List LogRow) (selector : Name) (after before : Nat) (reverse : Bool) (limit : Nat) : List LogRow :=
  let rows := selected log selector after before
  let out := page LogRow.position (max limit 1) [] (if reverse then rows.reverse else rows)
  if reverse then regroup LogRow.position out else out

structure Page where
  items : List LogRow
  scanned : Nat

-- A page's frames: one for the edits of each position.
def Page.frames (p : Page) : List (List LogRow) := groups LogRow.position p.items

def lastPosition : Nat := 2^63-1

-- A page of the edits after < position < before.  No after is the start of the log, and no
-- before its head.
def editsPage (log : List LogRow) (selector : Name) (after before : Option Nat) (reverse : Bool) (limit : Size) : Page :=
  let toHead := before.isNone
  let after := after.getD 0
  let before := before.getD lastPosition
  let items := readEdits log selector after before reverse limit
  let scanned := if reverse || toHead then after else before
  ⟨items,if limit ≤ items.length || toHead && !reverse && items ≠ [] then (items.getLast?.map LogRow.position).getD 0 else scanned⟩

-- A request's parameter: absent or empty, malformed, or a number.
abbrev Param (α : Type) := Option (Option α)

def positionOf : Param Nat → Except Unit (Option Nat)
  | none => .ok none
  | some (some n) => if n ≤ lastPosition then .ok (some n) else .error ()
  | some none => .error ()

def pageSize : Nat := 1000

def limitOf : Param Int → Except Unit Size
  | none => .ok ⟨pageSize,by decide⟩
  | some (some n) => if positive : 1 ≤ n then .ok ⟨min n.toNat pageSize,by unfold pageSize; omega⟩ else .error ()
  | some none => .error ()

-- A page for a principal whose view is these selectors, and those once the page is read.
def handleEdits (log : List LogRow) (granted still : List Name) (selector : Name) (after before : Param Nat) (reverse : Bool)
    (max : Param Int) : Except (Nat × Name) Page :=
  if Selectors.validSelector selector = false then .error (400,"malformed selector".toList)
  else match positionOf after,positionOf before with
    | .ok after,.ok before => match limitOf max with
      | .ok limit =>
        if Selectors.covers granted selector = false then .error (403,"selector not visible".toList)
        else if Selectors.covers still selector = false then .error (403,"selector not visible".toList)
        else .ok (editsPage log selector after before reverse limit)
      | .error _ => .error (400,"max must be a positive integer".toList)
    | _,_ => .error (400,"after and before must be positions".toList)

-- A log that only grows while it is read: each edit comes after all it held.
structure Log where
  rows : Nat → List LogRow
  unique : ∀ k, ((rows k).map fun row => (row.position,row.slice)).Nodup
  named : ∀ k, ∀ row ∈ rows k, sliceNameOk row.slice = true
  grows : ∀ k, ∃ more, rows (k+1) = rows k++more ∧ ∀ old ∈ rows k, ∀ row ∈ more, old.position < row.position

-- A read from page to page, each request reading the log as it then is: the position scanned is
-- the next bound, until it gets no further or reaches the far one.
def follow (log : Log) (limit : Nat → Size) (selector : Name) (reverse : Bool) : Nat → Nat → Option Nat → Option Nat → Option (List Page)
  | 0,_,_,_ => none
  | fuel+1,k,after,before =>
    let page := editsPage (log.rows k) selector after before reverse (limit k)
    if page.scanned ≤ after.getD 0 ∨ before.getD lastPosition ≤ page.scanned then some [page]
    else if reverse then (follow log limit selector reverse fuel (k+1) after (some page.scanned)).map (page :: ·)
    else (follow log limit selector reverse fuel (k+1) (some page.scanned) before).map (page :: ·)

-- An integer a JavaScript number holds exactly.
abbrev JsInt := {n : Nat // n < 2^53}

-- What the client's tail pushes.
inductive Push where
  | edits (edits : List LogRow) (scanned : Nat)
  | editsDone

-- The client's tail of a backfill: page after page below until, to where the scan reaches it or
-- gets no further.  A page's edits are those of its frames.
def tail (log : Log) (limit : Nat → Size) (selector : Name) (until_ : JsInt) : Nat → Nat → Nat → Option (List Push)
  | 0,_,_ => none
  | fuel+1,k,after =>
    let page := editsPage (log.rows k) selector (some after) (some until_.val) false (limit k)
    let edits := page.frames.flatten
    let known := decide (page.scanned < 2^53)
    let reached := if known then page.scanned else (edits.getLast?.map LogRow.position).getD 0
    let pushed := if edits ≠ [] then [.edits edits reached] else []
    if !known ∨ until_.val ≤ page.scanned ∨ page.scanned ≤ after then some (pushed++[.editsDone])
    else (tail log limit selector until_ fuel (k+1) page.scanned).map (pushed++·)

-- How a read delivers two edits: in its direction, and those of one position by their slices.
def Delivers (reverse : Bool) (a b : LogRow) : Prop :=
  Paging.Along reverse a.position b.position ∨ a.position = b.position ∧ a.slice < b.slice

instance : Std.Total InOrder := ⟨fun a b => by
  unfold InOrder
  rcases lt_trichotomy a.position b.position with less | same | more
  · exact .inl (.inl less)
  · exact (le_total (utf8 a.slice) (utf8 b.slice)).imp (fun le => .inr ⟨same,le⟩) fun le => .inr ⟨same.symm,le⟩
  · exact .inr (.inl more)⟩

instance : IsTrans LogRow InOrder := ⟨fun a b c left right => by
  unfold InOrder at *
  rcases left with less | ⟨same,le⟩
  · exact .inl (right.elim less.trans fun ⟨same,_⟩ => same ▸ less)
  · rcases right with less | ⟨same',le'⟩
    · exact .inl (same ▸ less)
    · exact .inr ⟨same.trans same',le.trans le'⟩⟩

theorem nameChar_low (char : nameChar c = true) : c < '\x7f' := by
  have low : c.toNat < 0x7f := by
    unfold nameChar segmentChar Char.isAlphanum Char.isAlpha Char.isUpper Char.isLower Char.isDigit at char
    simp only [Bool.or_eq_true,Bool.and_eq_true,decide_eq_true_eq,ge_iff_le,UInt32.le_iff_toNat_le] at char
    change c.val.toNat < 0x7f
    rcases char with (((((((upper | lower) | digit) | rfl) | rfl) | rfl) | rfl) | rfl) | rfl
    · exact lt_of_le_of_lt upper.2 (by decide)
    · exact lt_of_le_of_lt lower.2 (by decide)
    · exact lt_of_le_of_lt digit.2 (by decide)
    all_goals decide
  exact low

theorem within_iff {text slice : Name} (ends : Snapshots.Ends text) (ok : sliceNameOk slice = true) :
    (utf8 text ≤ utf8 slice ∧ utf8 slice < (prefixBound (utf8 text)).getD [0x7f]) ↔ text <+: slice := by
  rcases ends with rfl | ⟨front,s,rfl,low⟩
  · refine iff_of_true ⟨Texts.prefix_le List.nil_prefix,?_⟩ List.nil_prefix
    have del : (prefixBound (utf8 [])).getD [0x7f] = utf8 ['\x7f'] := by decide
    rw [del,utf8_lt]
    cases slice with
    | nil => exact List.nil_lt_cons _ _
    | cons c rest => exact List.cons_lt_cons_iff.mpr (.inl (nameChar_low (sliceNameOk_chars ok List.mem_cons_self)))
  · have bound := Scan.prefixBound_sign low front
    rw [bound,Option.getD_some,Scan.prefixBound_bounds bound,← utf8_starts]
    constructor
    · rintro ⟨le,less | starts⟩
      · exact absurd le (not_le.mpr less)
      · exact starts
    · exact fun starts => ⟨Texts.prefix_le starts,.inr starts⟩

section
variable {log : List LogRow} {selector : Name} (after before : Nat)

theorem selected_sorted (selector : Name) (after before : Nat) (unique : (log.map fun row => (row.position,row.slice)).Nodup) :
    (selected log selector after before).Pairwise (Delivers false) := by
  have strict : ∀ keep : LogRow → Bool, ((log.filter keep).insertionSort InOrder).Pairwise (Delivers false) := by
    intro keep
    have sorted := List.pairwise_insertionSort InOrder (log.filter keep)
    have perm := List.perm_insertionSort InOrder (log.filter keep)
    have fresh : ((log.filter keep).insertionSort InOrder).Pairwise fun a b => (a.position,a.slice) ≠ (b.position,b.slice) :=
      List.pairwise_map.mp ((perm.map _).nodup_iff.mpr (unique.sublist (List.filter_sublist.map _)))
    refine sorted.imp₂ (fun a b inOrder apart => ?_) fresh
    rcases inOrder with less | ⟨same,le⟩
    · exact .inl (by simpa [Paging.Along] using less)
    · refine .inr ⟨same,(utf8_lt _ _).mp (lt_of_le_of_ne le fun equal => apart ?_)⟩
      rw [same,utf8_inj.mp equal]
  unfold selected readPrefix readSlice
  dsimp only
  split
  · exact strict _
  · exact strict _

theorem mem_selected (ok : Selectors.validSelector selector = true) (named : ∀ row ∈ log, sliceNameOk row.slice = true) (row : LogRow) :
    row ∈ selected log selector after before ↔
      row ∈ log ∧ selectorCovers selector row.slice = true ∧ after < row.position ∧ row.position < before := by
  unfold selected
  by_cases star : selector.getLast? = some '*'
  · rw [if_pos ((Selectors.isPrefixSelector_iff ok).mpr star)]
    have ends := Snapshots.selector_ends ok
    unfold selectorPrefix at ends
    rw [if_pos star] at ends
    unfold readPrefix
    dsimp only
    rw [List.mem_insertionSort,List.mem_filter,decide_eq_true_eq]
    refine and_congr_right fun member => ?_
    rw [covers_star star,and_comm (a:=selector.dropLast <+: row.slice)]
    refine and_congr_right fun _ => ?_
    exact within_iff ends (named row member)
  · rw [if_neg fun is => star ((Selectors.isPrefixSelector_iff ok).mp is)]
    unfold readSlice
    rw [List.mem_insertionSort,List.mem_filter,decide_eq_true_eq,covers_exact star]

theorem readEdits_spec (selector : Name) (after before : Nat) (unique : (log.map fun row => (row.position,row.slice)).Nodup) (reverse : Bool) (limit : Size) :
    (readEdits log selector after before reverse limit).Pairwise (Delivers reverse) ∧
    ∃ left, (∀ row, row ∈ selected log selector after before ↔ row ∈ readEdits log selector after before reverse limit ∨ row ∈ left) ∧
      (left = [] ∨ limit ≤ (readEdits log selector after before reverse limit).length) ∧
      ∀ x ∈ readEdits log selector after before reverse limit, ∀ y ∈ left, Paging.Along reverse x.position y.position := by
  have sorted := selected_sorted selector after before unique
  have size : max limit.val 1 = limit.val := max_eq_left limit.property
  unfold readEdits
  dsimp only
  rw [size]
  cases reverse with
  | false =>
    have places : (selected log selector after before).Pairwise fun a b => Paging.Along false a.position b.position ∨ a.position = b.position :=
      sorted.imp fun order => order.imp id And.left
    obtain ⟨left,whole,full,across⟩ := page_spec limit.val places
    simp only [Bool.false_eq_true,if_false]
    generalize page LogRow.position limit.val [] (selected log selector after before) = out at *
    rw [whole] at sorted ⊢
    exact ⟨(List.pairwise_append.mp sorted).1,left,fun row => List.mem_append,full,across⟩
  | true =>
    have falls : (selected log selector after before).reverse.Pairwise fun a b =>
        b.position < a.position ∨ a.position = b.position ∧ b.slice < a.slice := by
      rw [List.pairwise_reverse]
      refine sorted.imp fun order => ?_
      rcases order with less | ⟨same,tied⟩
      · exact .inl (by simpa [Paging.Along] using less)
      · exact .inr ⟨same.symm,tied⟩
    have places : (selected log selector after before).reverse.Pairwise fun a b =>
        Paging.Along true a.position b.position ∨ a.position = b.position :=
      falls.imp fun order => order.imp (fun less => by simpa [Paging.Along] using less) And.left
    obtain ⟨left,whole,full,across⟩ := page_spec limit.val places
    have members : ∀ row, row ∈ selected log selector after before ↔ row ∈ (selected log selector after before).reverse := fun row =>
      List.mem_reverse.symm
    simp only [if_true,members]
    generalize page LogRow.position limit.val [] (selected log selector after before).reverse = out at *
    have perm := regroup_perm LogRow.position out
    rw [whole] at falls ⊢
    refine ⟨?_,left,fun row => ?_,full.imp id fun enough => perm.length_eq ▸ enough,fun x member => across x (perm.mem_iff.mp member)⟩
    · refine (regroup_sorted (List.pairwise_append.mp falls).1).imp fun order => ?_
      exact order.imp (fun less => by simpa [Paging.Along] using less) id
    · rw [List.mem_append,perm.mem_iff]

end

section
variable {log : List LogRow} {selector : Name}

-- A page is in its read's order.  One that ends the read holds all there is between its bounds,
-- and any other what is up to the position scanned, which is one of its own.
theorem editsPage_spec (ok : Selectors.validSelector selector = true) (unique : (log.map fun row => (row.position,row.slice)).Nodup)
    (named : ∀ row ∈ log, sliceNameOk row.slice = true) (after before : Option Nat) (reverse : Bool) (limit : Size) :
    let p := editsPage log selector after before reverse limit
    let lo := after.getD 0
    let hi := before.getD lastPosition
    p.items.Pairwise (Delivers reverse) ∧
    (before ≠ none → reverse = false → p.scanned ≤ hi) ∧
    (p.scanned ≤ lo ∨ hi ≤ p.scanned → ∀ row, row ∈ p.items ↔
      row ∈ log ∧ selectorCovers selector row.slice = true ∧ lo < row.position ∧ row.position < hi) ∧
    (¬(p.scanned ≤ lo ∨ hi ≤ p.scanned) → (∃ row ∈ p.items, row.position = p.scanned) ∧ ∀ row, row ∈ p.items ↔
      (row ∈ log ∧ selectorCovers selector row.slice = true ∧ lo < row.position ∧ row.position < hi) ∧
        ¬Paging.Along reverse p.scanned row.position) := by
  intro p lo hi
  obtain ⟨sorted,left,members,full,across⟩ := readEdits_spec selector lo hi unique reverse limit
  have mine := mem_selected lo hi ok named
  have items : p.items = readEdits log selector lo hi reverse limit := rfl
  have scanned : p.scanned = if limit ≤ p.items.length || before.isNone && !reverse && p.items ≠ [] then
      (p.items.getLast?.map LogRow.position).getD 0 else if reverse || before.isNone then lo else hi := rfl
  rw [← items] at sorted members full across
  generalize p.items = out at *
  generalize p.scanned = reached at *
  -- a page that is full, or short at the head, scanned to its last position
  by_cases atLast : (limit ≤ out.length || before.isNone && !reverse && out ≠ []) = true
  · have filled : out ≠ [] := by
      rintro rfl
      have positive := limit.property
      simp only [List.length_nil,ne_eq,not_true_eq_false,decide_false,Bool.and_false,Bool.or_false,decide_eq_true_eq] at atLast
      exact absurd atLast (not_le.mpr positive)
    obtain ⟨front,last,rfl⟩ := (List.eq_nil_or_concat' out).resolve_left filled
    rw [if_pos atLast,List.getLast?_concat,Option.map_some,Option.getD_some] at scanned
    subst scanned
    have final : last ∈ front++[last] := List.mem_append_right _ List.mem_cons_self
    obtain ⟨held,covers,above,below⟩ := (mine last).mp ((members last).mpr (.inl final))
    refine ⟨sorted,fun _ _ => le_of_lt below,fun done => ?_,fun _ => ⟨⟨last,final,rfl⟩,fun row => ?_⟩⟩
    · rcases done with low | high
      · exact absurd low (not_le.mpr above)
      · exact absurd high (not_le.mpr below)
    · rw [← mine,members]
      constructor
      · intro inside
        refine ⟨.inl inside,fun past => ?_⟩
        rcases List.mem_append.mp inside with early | only
        · have order := (List.pairwise_append.mp sorted).2.2 row early last (List.mem_singleton.mpr rfl)
          unfold Delivers Paging.Along at order
          unfold Paging.Along at past
          cases reverse <;> simp at order past <;> omega
        · rw [List.mem_singleton.mp only] at past
          unfold Paging.Along at past
          cases reverse <;> simp at past
      · rintro ⟨inside | beyond,upto⟩
        · exact inside
        · exact absurd (across last final row beyond) upto
  -- a short page holds all there is
  · rw [if_neg atLast] at scanned
    have short : ¬(limit : Nat) ≤ out.length := by
      intro enough
      exact atLast (by simp [enough])
    have none : left = [] := full.resolve_right short
    subst none
    have ends : reached ≤ lo ∨ hi ≤ reached := by
      rw [scanned]
      split
      · exact .inl (le_refl lo)
      · exact .inr (le_refl hi)
    refine ⟨sorted,fun bounded forward => ?_,fun _ row => ?_,fun goes => absurd ends goes⟩
    · obtain ⟨b,rfl⟩ := Option.ne_none_iff_exists'.mp bounded
      rw [scanned,forward]
      exact le_refl hi
    · rw [← mine,members]
      simp

end

variable {log : Log} {selector : Name}

theorem Log.later (log : Log) {j k : Nat} (le : j ≤ k) :
    ∃ more, log.rows k = log.rows j++more ∧ ∀ old ∈ log.rows j, ∀ row ∈ more, old.position < row.position := by
  induction le with
  | refl => exact ⟨[],(List.append_nil _).symm,fun old _ row member => (by cases member)⟩
  | step le ih =>
    obtain ⟨more,is,above⟩ := ih
    obtain ⟨new,grown,past⟩ := log.grows _
    refine ⟨more++new,by rw [grown,is,List.append_assoc],fun old held row member => ?_⟩
    rcases List.mem_append.mp member with early | late
    · exact above old held row early
    · exact past old (is ▸ List.mem_append_left _ held) row late

-- What a log held at or below one of its positions is settled.
theorem Log.settled (log : Log) {j k : Nat} (le : j ≤ k) {old row : LogRow} (held : old ∈ log.rows j) (upto : row.position ≤ old.position) :
    row ∈ log.rows k ↔ row ∈ log.rows j := by
  obtain ⟨more,is,above⟩ := log.later le
  rw [is,List.mem_append]
  exact ⟨fun either => either.resolve_right fun new => absurd (above old held row new) (not_lt.mpr upto),.inl⟩

-- The pages deliver a range of a log once, in their order, and part no position's edits.
structure Partition (rows : List LogRow) (selector : Name) (reverse : Bool) (lo hi : Nat) (pages : List Page) : Prop where
  ordered : (pages.flatMap Page.items).Pairwise (Delivers reverse)
  whole : ∀ row, row ∈ pages.flatMap Page.items ↔ row ∈ rows ∧ selectorCovers selector row.slice = true ∧ lo < row.position ∧ row.position < hi
  apart : pages.Pairwise fun p q => ∀ x ∈ p.items, ∀ y ∈ q.items, x.position ≠ y.position

theorem Partition.cons {rows : List LogRow} {reverse : Bool} {pages : List Page} {p : Page} (lo hi : Nat)
    (rest : Partition rows selector reverse (if reverse then lo else p.scanned) (if reverse then p.scanned else hi) pages)
    (inside : lo < p.scanned ∧ p.scanned < hi) (sorted : p.items.Pairwise (Delivers reverse))
    (holds : ∀ row, row ∈ p.items ↔ (row ∈ rows ∧ selectorCovers selector row.slice = true ∧ lo < row.position ∧ row.position < hi) ∧
      ¬Paging.Along reverse p.scanned row.position) : Partition rows selector reverse lo hi (p :: pages) := by
  have across : ∀ x ∈ p.items, ∀ y ∈ pages.flatMap Page.items, Paging.Along reverse x.position y.position := by
    intro x here y there
    obtain ⟨_,upto⟩ := (holds x).mp here
    obtain ⟨_,_,above,below⟩ := (rest.whole y).mp there
    unfold Paging.Along at *
    cases reverse <;> simp at * <;> omega
  refine ⟨?_,fun row => ?_,List.pairwise_cons.mpr ⟨fun q member x here y there => ?_,rest.apart⟩⟩
  · rw [List.flatMap_cons,List.pairwise_append]
    exact ⟨sorted,rest.ordered,fun x here y there => .inl (across x here y there)⟩
  · rw [List.flatMap_cons,List.mem_append,holds,rest.whole]
    constructor
    · rintro (⟨mine,_⟩ | ⟨held,covers,above,below⟩)
      · exact mine
      · refine ⟨held,covers,?_⟩
        cases reverse <;> simp at above below <;> omega
    · rintro ⟨held,covers,above,below⟩
      by_cases past : Paging.Along reverse p.scanned row.position
      · refine .inr ⟨held,covers,?_⟩
        unfold Paging.Along at past
        cases reverse <;> simp at past ⊢ <;> omega
      · exact .inl ⟨⟨held,covers,above,below⟩,past⟩
  · have turn := across x here y (List.mem_flatMap.mpr ⟨q,member,there⟩)
    unfold Paging.Along at turn
    cases reverse <;> simp at turn <;> omega

-- Every read ends, its pages a partition of its range: read forward, of the log as its last
-- request found it, and in reverse, of the log as its first one did.
theorem follow_ok (ok : Selectors.validSelector selector = true) (limit : Nat → Size) (reverse : Bool) (fuel k : Nat)
    (after before : Option Nat) (enough : before.getD lastPosition-after.getD 0 < fuel) :
    ∃ pages, follow log limit selector reverse fuel k after before = some pages ∧ pages ≠ [] ∧
      Partition (log.rows (if reverse then k else k+(pages.length-1))) selector reverse (after.getD 0) (before.getD lastPosition) pages := by
  induction fuel generalizing k after before with
  | zero => omega
  | succ fuel ih =>
    obtain ⟨sorted,_,ended,goes⟩ := editsPage_spec ok (log.unique k) (log.named k) after before reverse (limit k)
    unfold follow
    dsimp only
    generalize editsPage (log.rows k) selector after before reverse (limit k) = p at *
    by_cases done : p.scanned ≤ after.getD 0 ∨ before.getD lastPosition ≤ p.scanned
    · rw [if_pos done]
      refine ⟨[p],rfl,List.cons_ne_nil _ _,?_⟩
      have last : (if reverse = true then k else k+([p].length-1)) = k := by simp
      rw [last]
      refine ⟨?_,fun row => ?_,List.pairwise_singleton _ _⟩
      · rw [List.flatMap_singleton]
        exact sorted
      · rw [List.flatMap_singleton]
        exact ended done row
    · rw [if_neg done]
      obtain ⟨⟨old,held,reached⟩,holds⟩ := goes done
      have old_held := ((holds old).mp held).1.1
      rw [not_or,not_le,not_le] at done
      cases reverse with
      | true =>
        obtain ⟨rest,ran,filled,rest_ok⟩ := ih (k+1) after (some p.scanned) (by rw [Option.getD_some]; omega)
        simp only [if_true,ran,Option.map_some] at rest_ok ⊢
        refine ⟨p :: rest,rfl,List.cons_ne_nil _ _,Partition.cons _ _ ?_ done sorted holds⟩
        refine ⟨rest_ok.ordered,fun row => ?_,rest_ok.apart⟩
        rw [rest_ok.whole]
        refine and_congr_left fun within => log.settled (Nat.le_succ k) old_held ?_
        rw [reached]
        exact le_of_lt within.2.2
      | false =>
        obtain ⟨rest,ran,filled,rest_ok⟩ := ih (k+1) (some p.scanned) before (by rw [Option.getD_some]; omega)
        simp only [Bool.false_eq_true,if_false,ran,Option.map_some] at rest_ok ⊢
        have same : k+1+(rest.length-1) = k+((p :: rest).length-1) := by
          have positive := List.length_pos_of_ne_nil filled
          rw [List.length_cons]
          omega
        rw [same] at rest_ok
        refine ⟨p :: rest,rfl,List.cons_ne_nil _ _,Partition.cons _ _ rest_ok done sorted fun row => ?_⟩
        rw [holds]
        unfold Paging.Along
        simp only [Bool.false_eq_true,if_false,not_lt]
        refine and_congr_left fun upto => and_congr_left fun _ => ?_
        exact (log.settled (Nat.le_add_right k _) old_held (reached ▸ upto)).symm

-- The client's tail is a read forward, and pushes what its pages hold and that it is done.
def pushOf (p : Page) : List Push := if p.items ≠ [] then [.edits p.items p.scanned] else []

theorem tail_follow (ok : Selectors.validSelector selector = true) (limit : Nat → Size) (until_ : JsInt) (fuel k after : Nat) :
    tail log limit selector until_ fuel k after =
      (follow log limit selector false fuel k (some after) (some until_.val)).map fun pages => pages.flatMap pushOf++[.editsDone] := by
  induction fuel generalizing k after with
  | zero => rfl
  | succ fuel ih =>
    obtain ⟨_,bounded,_⟩ := editsPage_spec ok (log.unique k) (log.named k) (some after) (some until_.val) false (limit k)
    have within := bounded nofun rfl
    unfold tail follow
    dsimp only
    generalize editsPage (log.rows k) selector (some after) (some until_.val) false (limit k) = p at *
    have known : p.scanned < 2^53 := lt_of_le_of_lt within until_.property
    have edits : p.frames.flatten = p.items := groups_flatten LogRow.position p.items
    simp only [known,decide_true,Bool.not_true,Bool.false_eq_true,false_or,if_true,if_false,edits,Option.getD_some]
    by_cases done : p.scanned ≤ after ∨ until_.val ≤ p.scanned
    · rw [if_pos done,if_pos done.symm]
      simp [pushOf]
    · rw [if_neg done,if_neg (fun other => done other.symm),ih]
      cases follow log limit selector false fuel (k+1) (some p.scanned) (some until_.val) with
      | none => rfl
      | some pages => simp [pushOf]

-- A page answered is a page of what was asked, to a principal who may see it before and after.
theorem handleEdits_page {rows : List LogRow} {granted still : List Name} {after before : Param Nat} {reverse : Bool} {max : Param Int} {p : Page}
    (answered : handleEdits rows granted still selector after before reverse max = .ok p) :
    Selectors.validSelector selector = true ∧ Selectors.covers granted selector = true ∧ Selectors.covers still selector = true ∧
    ∃ limit : Size, limit ≤ pageSize ∧ p = editsPage rows selector after.join before.join reverse limit := by
  have joined : ∀ {given : Param Nat} {at_}, positionOf given = .ok at_ → at_ = given.join := by
    intro given at_ read
    rcases given with _ | _ | n
    · cases read; rfl
    · cases read
    · unfold positionOf at read
      dsimp only at read
      split at read
      · cases read; rfl
      · cases read
  have sized : ∀ {limit : Size}, limitOf max = .ok limit → limit.val ≤ pageSize := by
    intro limit read
    rcases max with _ | _ | n
    · cases read; exact le_refl _
    · cases read
    · unfold limitOf at read
      dsimp only at read
      split at read
      · cases read; exact min_le_right _ _
      · cases read
  unfold handleEdits at answered
  split at answered
  · cases answered
  · rename_i valid
    split at answered
    · rename_i lo hi low high
      split at answered
      · rename_i limit read
        split at answered
        · cases answered
        · rename_i covers
          split at answered
          · cases answered
          · rename_i covers'
            cases answered
            rw [joined low,joined high]
            exact ⟨by simpa using valid,by simpa using covers,by simpa using covers',limit,sized read,rfl⟩
      · cases answered
    · cases answered

-- Edits paging partitions the range: a read in either direction, of pages of any sizes, ends
-- with every edit between its bounds delivered once, in order, and no position parted; and the
-- client's tail ends so too, having pushed those pages and once that it is done.  Edits the log
-- gains meanwhile are past all it held, and none is between the bounds where it reached the far one.
theorem edits_paging_partitions (ok : Selectors.validSelector selector = true) (log : Log) (limit : Nat → Size) :
    (∀ reverse after before, ∃ pages,
      follow log limit selector reverse (before.getD lastPosition-after.getD 0+1) 0 after before = some pages ∧
      Partition (log.rows (if reverse then 0 else pages.length-1)) selector reverse (after.getD 0) (before.getD lastPosition) pages) ∧
    (∀ (until_ : JsInt) after, ∃ pages,
      tail log limit selector until_ (until_.val-after+1) 0 after = some (pages.flatMap pushOf++[.editsDone]) ∧
      Partition (log.rows (pages.length-1)) selector false after until_.val pages) ∧
    ∀ k row, (row ∈ log.rows 0 → row ∈ log.rows k) ∧
      ∀ hi, (∃ old ∈ log.rows 0, hi ≤ old.position+1) → row.position < hi → (row ∈ log.rows k ↔ row ∈ log.rows 0) := by
  refine ⟨fun reverse after before => ?_,fun until_ after => ?_,fun k row => ⟨fun held => ?_,fun hi ⟨old,held,reached⟩ below => ?_⟩⟩
  · obtain ⟨pages,ran,_,parts⟩ := follow_ok ok limit reverse _ 0 after before (Nat.lt_succ_self _)
    refine ⟨pages,ran,?_⟩
    rwa [Nat.zero_add] at parts
  · obtain ⟨pages,ran,_,parts⟩ := follow_ok ok limit false (until_.val-after+1) 0 (some after) (some until_.val) (Nat.lt_succ_self _)
    refine ⟨pages,?_,?_⟩
    · rw [tail_follow ok,ran]
      rfl
    · simpa using parts
  · obtain ⟨more,is,_⟩ := log.later (Nat.zero_le k)
    rw [is]
    exact List.mem_append_left _ held
  · exact log.settled (Nat.zero_le k) held (by omega)

theorem edits_paging_partitions_sample :
    let row : Nat → LogRow := fun n => ⟨n,"a".toList,n,if n = 1 then .birth else .normal,[]⟩
    ∃ log : Log, (∀ k, log.rows k = [row 1,row 2,row 3]) ∧ ∃ pages,
      tail log (fun _ => ⟨2,by decide⟩) ['*'] ⟨4,by decide⟩ 5 0 0 = some (pages.flatMap pushOf++[.editsDone]) ∧
      Partition [row 1,row 2,row 3] ['*'] false 0 4 pages := by
  intro row
  refine ⟨⟨fun _ => [row 1,row 2,row 3],fun _ => by decide,fun _ => by decide,fun _ => ⟨[],rfl,fun _ _ _ new => (by cases new)⟩⟩,fun _ => rfl,?_⟩
  exact (@edits_paging_partitions ['*'] (by decide) _ fun _ => ⟨2,by decide⟩).2.1 ⟨4,by decide⟩ 0

end EditPages
end PhaseLock
