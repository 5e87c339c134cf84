import PhaseLock.Prepare
import PhaseLock.Runs

namespace PhaseLock
namespace Submits

-- A piece of a prepared body: bytes, or the hash that goes into a hole.
abbrev Piece := Bytes ⊕ Short

def bare (pieces : List Piece) : Bytes := pieces.flatMap fun piece => match piece with
  | .inl s => s
  | .inr _ => []

def full (pieces : List Piece) : Bytes := pieces.flatMap fun piece => match piece with
  | .inl s => s
  | .inr h => Mp.str h

def hashesOf (pieces : List Piece) : List Short := pieces.filterMap Sum.getRight?

def cuts : Nat → List Piece → List Nat
  | _,[] => []
  | start,.inl s :: rest => cuts (start+s.length) rest
  | start,.inr _ :: rest => start :: cuts start rest

-- The room the hashes of some pieces take.
def room (pieces : List Piece) : Nat := ((hashesOf pieces).map fun h => (Mp.str h.val).length).sum

@[simp] theorem bare_append (a b : List Piece) : bare (a++b) = bare a++bare b := List.flatMap_append
@[simp] theorem full_append (a b : List Piece) : full (a++b) = full a++full b := List.flatMap_append
@[simp] theorem hashesOf_append (a b : List Piece) : hashesOf (a++b) = hashesOf a++hashesOf b := List.filterMap_append

@[simp] theorem bare_bytes (s : Bytes) (rest : List Piece) : bare (.inl s :: rest) = s++bare rest := rfl
@[simp] theorem bare_hash (h : Short) (rest : List Piece) : bare (.inr h :: rest) = bare rest := rfl
@[simp] theorem full_bytes (s : Bytes) (rest : List Piece) : full (.inl s :: rest) = s++full rest := rfl
@[simp] theorem full_hash (h : Short) (rest : List Piece) : full (.inr h :: rest) = Mp.str h++full rest := rfl
@[simp] theorem hashesOf_nil : hashesOf [] = [] := rfl
@[simp] theorem hashesOf_bytes (s : Bytes) (rest : List Piece) : hashesOf (.inl s :: rest) = hashesOf rest := rfl
@[simp] theorem hashesOf_hash (h : Short) (rest : List Piece) : hashesOf (.inr h :: rest) = h :: hashesOf rest := rfl

theorem cuts_append (start : Nat) (a b : List Piece) : cuts start (a++b) = cuts start a++cuts (start+(bare a).length) b := by
  induction a generalizing start with
  | nil => rfl
  | cons piece a ih =>
    cases piece with
    | inl s => simp [cuts,ih,Nat.add_assoc]
    | inr h => simp [cuts,ih]

theorem length_cuts (start : Nat) (pieces : List Piece) : (cuts start pieces).length = (hashesOf pieces).length := by
  induction pieces generalizing start with
  | nil => rfl
  | cons piece pieces ih =>
    cases piece with
    | inl s => simpa [cuts] using ih _
    | inr h => simpa [cuts] using ih _

theorem cuts_shift (start by_ : Nat) (pieces : List Piece) : cuts (start+by_) pieces = (cuts by_ pieces).map (start+·) := by
  induction pieces generalizing by_ with
  | nil => rfl
  | cons piece pieces ih =>
    cases piece with
    | inl s => simp only [cuts]; rw [Nat.add_assoc,ih]
    | inr h => simp only [cuts,List.map_cons]; rw [ih]

theorem full_of_none {pieces : List Piece} (none : hashesOf pieces = []) : full pieces = bare pieces := by
  induction pieces with
  | nil => rfl
  | cons piece pieces ih =>
    cases piece with
    | inl s => rw [full_bytes,bare_bytes,ih (by simpa using none)]
    | inr h => simp at none

theorem length_full (pieces : List Piece) : (full pieces).length = (bare pieces).length+room pieces := by
  induction pieces with
  | nil => rfl
  | cons piece pieces ih =>
    cases piece with
    | inl s => simp only [full_bytes,bare_bytes,List.length_append,ih,room,hashesOf_bytes]; omega
    | inr h => simp only [full_hash,bare_hash,List.length_append,ih,room,hashesOf_hash,List.map_cons,List.sum_cons]; omega

-- Filling the holes of one mutation's pieces, which start at what of the body is done.
theorem fill_pieces (old done : Bytes) (pieces : List Piece) (after : Bytes) (whole : old = done++(bare pieces++after)) (m : Nat)
    (s : Prepared.Filling) (behind : s.at_ ≤ done.length) :
    let t := (((cuts done.length pieces).map fun pos => (m,pos)).zip (hashesOf pieces)).foldl (Prepared.fillHole old) s
    t.at_ ≤ (done++bare pieces).length ∧
      t.body++(old.drop t.at_).take ((done++bare pieces).length-t.at_) =
        s.body++(old.drop s.at_).take (done.length-s.at_)++full pieces ∧
      t.grew = s.grew.modify m (· + room pieces) := by
  induction pieces generalizing done s with
  | nil =>
    refine ⟨?_,?_,?_⟩
    · simpa [cuts,bare] using behind
    · simp [cuts,bare,full]
    · simp only [cuts,room,hashesOf,List.map_nil,List.zip_nil_left,List.foldl_nil,List.filterMap_nil,List.sum_nil,Nat.add_zero]
      exact (List.modify_id _ _).symm
  | cons piece pieces ih =>
    cases piece with
    | inl b =>
      have later := ih (done++b) (by rw [whole]; simp) s (by simp; omega)
      simp only [List.length_append,bare_bytes,full_bytes,cuts,hashesOf_bytes] at later ⊢
      obtain ⟨behind',text,grew⟩ := later
      refine ⟨by omega,?_,by simpa [room] using grew⟩
      have step : (old.drop s.at_).take (done.length+b.length-s.at_) = (old.drop s.at_).take (done.length-s.at_)++b := by
        have front : old.drop s.at_ = done.drop s.at_++(b++(bare pieces++after)) := by
          rw [whole,List.drop_append_of_le_length behind]
          simp
        have size : done.length-s.at_ = (done.drop s.at_).length := by simp
        have size' : done.length+b.length-s.at_ = (done.drop s.at_).length+b.length := by simp; omega
        rw [front,size',List.take_length_add_append,size,List.take_left,List.take_left]
      rw [step] at text
      simpa [Nat.add_assoc] using text
    | inr h =>
      have later := ih done (by simpa using whole) (Prepared.fillHole old s ((m,done.length),h)) (le_refl _)
      simp only [cuts,hashesOf_hash,List.map_cons,List.zip_cons_cons,List.foldl_cons,bare_hash,full_hash] at later ⊢
      obtain ⟨behind',text,grew⟩ := later
      refine ⟨behind',?_,?_⟩
      · rw [text]
        simp [Prepared.fillHole]
      · rw [grew]
        simp only [Prepared.fillHole,room,hashesOf_hash,List.map_cons,List.sum_cons,List.modify_modify_eq]
        congr 1
        funext n
        simp only [Function.comp]
        omega

-- The mutations of a body, by their pieces: where each starts, and its holes.
def starts (size : List Piece → Nat) : Nat → List (List Piece) → List Nat
  | _,[] => []
  | start,ps :: rest => start :: starts size (start+size ps) rest

def holesOf : Nat → Nat → List (List Piece) → List (Nat × Nat)
  | _,_,[] => []
  | i,start,ps :: rest => (cuts start ps).map (fun pos => (i,pos))++holesOf (i+1) (start+(bare ps).length) rest

theorem length_holesOf (i start : Nat) (all : List (List Piece)) : (holesOf i start all).length = (hashesOf all.flatten).length := by
  induction all generalizing i start with
  | nil => rfl
  | cons ps rest ih => simp [holesOf,length_cuts,ih]

@[simp] theorem length_starts (size : List Piece → Nat) (start : Nat) (all : List (List Piece)) :
    (starts size start all).length = all.length := by
  induction all generalizing start with
  | nil => rfl
  | cons ps rest ih => simp [starts,ih]

theorem modify_here (front : List Nat) (n : Nat) (rest : List Nat) (f : Nat → Nat) :
    (front++n :: rest).modify front.length f = front++f n :: rest := by
  induction front with
  | nil => rfl
  | cons m front ih => rw [List.cons_append,List.length_cons,List.modify_succ_cons,ih,List.cons_append]

theorem fill_all (old done : Bytes) (all : List (List Piece)) (after : Bytes) (whole : old = done++(bare all.flatten++after))
    (s : Prepared.Filling) (behind : s.at_ ≤ done.length) (front : List Nat)
    (grew : s.grew = front++List.replicate all.length 0) :
    let t := ((holesOf front.length done.length all).zip (hashesOf all.flatten)).foldl (Prepared.fillHole old) s
    t.at_ ≤ (done++bare all.flatten).length ∧
      t.body++(old.drop t.at_).take ((done++bare all.flatten).length-t.at_) =
        s.body++(old.drop s.at_).take (done.length-s.at_)++full all.flatten ∧
      t.grew = front++all.map room := by
  induction all generalizing done s front with
  | nil =>
    refine ⟨?_,?_,?_⟩
    · simpa [holesOf,bare] using behind
    · simp [holesOf,bare,full]
    · simpa [holesOf] using grew
  | cons ps all ih =>
    have first := fill_pieces old done ps (bare all.flatten++after) (by rw [whole]; simp) front.length s behind
    dsimp only at first
    rw [List.flatten_cons,hashesOf_append,holesOf,
      List.zip_append (by rw [List.length_map,length_cuts]),List.foldl_append]
    generalize (((cuts done.length ps).map fun pos => (front.length,pos)).zip (hashesOf ps)).foldl (Prepared.fillHole old) s = mid at first ⊢
    obtain ⟨behind',text,grown⟩ := first
    have grown : mid.grew = front++[room ps]++List.replicate all.length 0 := by
      rw [grown,grew,List.length_cons,List.replicate_succ,modify_here]
      simp
    have later := ih (done++bare ps) (by rw [whole]; simp) mid behind' (front++[room ps]) grown
    dsimp only at later
    rw [List.length_append,List.length_singleton,List.length_append] at later
    dsimp only
    obtain ⟨behind'',text',grown'⟩ := later
    refine ⟨by simpa [Nat.add_assoc] using behind'',?_,?_⟩
    · simp only [bare_append,full_append,List.length_append,Nat.add_assoc] at text' text ⊢
      rw [text',text]
      simp
    · rw [grown']
      simp

theorem shifted_starts (shift start : Nat) (all : List (List Piece)) :
    Prepared.shifted shift (starts (fun ps => (bare ps).length) start all) (all.map room) =
      starts (fun ps => (full ps).length) (start+shift) all := by
  induction all generalizing shift start with
  | nil => rfl
  | cons ps all ih =>
    simp only [starts,List.map_cons,Prepared.shifted,ih,length_full]
    congr 2
    omega

-- A body of pieces, its hashes filled in: each mutation starts where those before it end.
theorem fill_eq {p : Prepared} {all : List (List Piece)} (body : p.body = bare all.flatten)
    (offsets : p.offsets = starts (fun ps => (bare ps).length) 0 all) (holes : p.holes = holesOf 0 0 all) :
    (p.fill (hashesOf all.flatten)).body = full all.flatten ∧
      (p.fill (hashesOf all.flatten)).offsets = starts (fun ps => (full ps).length) 0 all ∧
      (p.fill (hashesOf all.flatten)).reasons = p.reasons ∧ (p.fill (hashesOf all.flatten)).proofs = p.proofs := by
  unfold Prepared.fill
  by_cases none : hashesOf all.flatten = []
  · have each : ∀ ps ∈ all, hashesOf ps = [] := by
      intro ps member
      have sub : hashesOf ps ⊆ hashesOf all.flatten := by
        intro h inside
        rw [hashesOf,List.mem_filterMap] at inside ⊢
        obtain ⟨piece,held,is⟩ := inside
        exact ⟨piece,List.mem_flatten.mpr ⟨ps,member,held⟩,is⟩
      rw [none] at sub
      exact List.subset_nil.mp sub
    rw [if_pos none,full_of_none none]
    refine ⟨body,?_,rfl,rfl⟩
    rw [offsets]
    clear body offsets holes none
    generalize 0 = start
    induction all generalizing start with
    | nil => rfl
    | cons ps all ih =>
      simp only [starts,full_of_none (each ps List.mem_cons_self)]
      rw [ih fun ps member => each ps (List.mem_cons_of_mem _ member)]
  · rw [if_neg none]
    have filled := fill_all p.body [] all [] (by rw [body]; simp) ⟨[],List.replicate p.offsets.length 0,0⟩ (by simp) []
      (by rw [offsets]; simp)
    dsimp only at filled ⊢
    simp only [List.length_nil,List.nil_append,← holes] at filled
    generalize (p.holes.zip (hashesOf all.flatten)).foldl (Prepared.fillHole p.body) _ = t at filled ⊢
    obtain ⟨behind,text,grew⟩ := filled
    refine ⟨?_,?_,rfl,rfl⟩
    · have size : (bare all.flatten).length-t.at_ = (p.body.drop t.at_).length := by rw [List.length_drop,body]
      rw [size,List.take_length] at text
      simpa using text
    · rw [grew,offsets,shifted_starts]

-- A mutation as it is submitted.
def seriesVal (digest : Digest) : List Mp.Node → Mp.Val × Mp.Val
  | .str s :: n :: _ => (.str (Mp.utf8 (digest.key s)),.int (n.asU64.getD 0))
  | _ => (.nil,.nil)

def idVal : List Mp.Node → Mp.Val
  | _ :: _ :: .bin id :: _ => .bin id
  | _ => .nil

def expectVal (e : Mp.Node) : Mp.Val :=
  .map ((e.entries.getD []).map fun entry => (.str (entry.1.asStr.getD []),.int (entry.2.asU64.getD 0)))

-- What is asked of a parsed element: that it is a mutation.
def Asks (items : List Mp.Node) : Prop := isMutation (.array items) = true

theorem asks_iff {items : List Mp.Node} (asks : Asks items) : ∃ series n id data rest, items = series :: n :: .bin id :: data :: rest ∧
    id.length = idLen ∧ (series = .nil ∧ n = .nil ∨ ∃ s, series = .str s ∧ isNumber n = true) := by
  unfold Asks isMutation at asks
  split at asks
  · rename_i series n id data rest is
    cases is
    rw [Bool.and_eq_true] at asks
    obtain ⟨numbered,named⟩ := asks
    split at named
    · rename_i id
      refine ⟨series,n,id,data,rest,rfl,by simpa using named,?_⟩
      split at numbered
      · exact .inl ⟨rfl,rfl⟩
      · simp only [Bool.and_eq_true] at numbered
        exact .inr ⟨_,rfl,numbered.2⟩
      · cases numbered
    · cases named
  · cases asks

theorem uint_int (n : Nat) : Mp.int n = Mp.uint n := by simp [Mp.int]

theorem writeEntries_expect (entries : List (Mp.Node × Mp.Node)) :
    Mp.Val.writeEntries (entries.map fun entry => (Mp.Val.str (entry.1.asStr.getD []),Mp.Val.int (entry.2.asU64.getD 0))) =
      entries.flatMap fun entry => Mp.str (entry.1.asStr.getD [])++Mp.uint (entry.2.asU64.getD 0) := by
  induction entries with
  | nil => rfl
  | cons entry entries ih => simp [Mp.Val.writeEntries,Mp.Val.write,uint_int,ih]

theorem expect_write (e : Mp.Node) : (expectVal e).write = expectOf e := by
  rw [expectVal,Mp.Val.write,List.length_map,writeEntries_expect,expectOf]

-- A mutation as it is submitted, whatever its data.
def submittedAs (digest : Digest) (items : List Mp.Node) (data : Mp.Val) : Mp.Val :=
  .array ([(seriesVal digest items).1,(seriesVal digest items).2,idVal items,data]++((items[4]?).map expectVal).toList)

theorem submittedAs_write {items : List Mp.Node} (asks : Asks items) (digest : Digest) (data : Mp.Val) :
    (submittedAs digest items data).write =
      Mp.array (if 4 < items.length then 5 else 4)++headOf digest items++(data.write++((items[4]?).map expectOf).getD []) := by
  obtain ⟨series,n,id,given,rest,rfl,_,numbered⟩ := asks_iff asks
  have head : Mp.Val.writes [(seriesVal digest (series :: n :: .bin id :: given :: rest)).1,
      (seriesVal digest (series :: n :: .bin id :: given :: rest)).2,idVal (series :: n :: .bin id :: given :: rest)] =
      headOf digest (series :: n :: .bin id :: given :: rest) := by
    rcases numbered with ⟨rfl,rfl⟩ | ⟨s,rfl,_⟩
    · simp [Mp.Val.writes,seriesVal,idVal,Mp.Val.write,headOf]
    · simp [Mp.Val.writes,seriesVal,idVal,Mp.Val.write,headOf,uint_int]
  simp only [Mp.Val.writes,List.append_nil] at head
  cases rest with
  | nil =>
    simp only [submittedAs,Mp.Val.write,← head]
    simp [Mp.Val.writes]
  | cons e rest =>
    simp only [submittedAs,Mp.Val.write,← head]
    simp [Mp.Val.writes,expect_write]

theorem Fits_mono {v : Mp.Val} (fits : v.Fits levels) (le : levels ≤ more) : v.Fits more := by
  induction levels generalizing v more with
  | zero => exact absurd fits (by simp [Mp.Val.Fits])
  | succ levels ih =>
    obtain ⟨more,rfl⟩ : ∃ m, more = m+1 := ⟨more-1,by omega⟩
    cases v with
    | array items => exact ⟨fits.1,fun v member => ih (fits.2 v member) (by omega)⟩
    | map entries => exact ⟨fits.1,fun e member => ⟨ih (fits.2 e member).1 (by omega),ih (fits.2 e member).2 (by omega)⟩⟩
    | _ => exact fits

theorem isNumber_lt {n : Mp.Node} (number : isNumber n = true) : n.asU64.getD 0 < 2^64 := by
  unfold isNumber at number
  cases is : n.asU64 with
  | none => simp
  | some v =>
    rw [is] at number
    simp at number
    simp only [Option.getD_some]
    omega

-- What an expectation that passes names: few slices, by short names, at seqs.
theorem expectReason_none {e : Mp.Node} (passes : expectReason e = none) :
    ∃ m, e = .map m ∧ m.length ≤ expectMax ∧ ∀ entry ∈ m, ∃ s, entry.1 = .str s ∧ sliceNameOk s = true ∧ isSeq entry.2 = true := by
  unfold expectReason at passes
  split at passes
  · cases passes
  · rename_i m is
    have shape : e = .map m := by
      cases e <;> simp [Mp.Node.entries] at is
      rw [is]
    refine ⟨m,shape,?_⟩
    split at passes
    · cases passes
    · rename_i few
      refine ⟨by omega,fun entry member => ?_⟩
      split at passes
      · cases passes
      · rename_i every
        have fine := List.findSome?_eq_none_iff.mp every entry member
        unfold entryReason at fine
        split at fine
        · cases fine
        · rename_i s named
          split at fine
          · cases fine
          · rename_i good
            split at fine
            · cases fine
            · rename_i seq
              refine ⟨s,?_,by simpa using (not_or.mp good).2,by simpa using seq⟩
              cases is : entry.1 <;> simp [is,Mp.Node.asStr] at named
              rw [named]

theorem isSeq_lt {n : Mp.Node} (seq : isSeq n = true) : n.asU64.getD 0 < 2^53 := by
  unfold isSeq at seq
  cases is : n.asU64 with
  | none => simp
  | some v =>
    rw [is] at seq
    simpa using seq

theorem sliceNameOk_short {s : Bytes} (ok : sliceNameOk s = true) : s.length ≤ sliceMax := by
  unfold sliceNameOk at ok
  simp only [Bool.and_eq_true,decide_eq_true_eq] at ok
  exact ok.1.1

theorem expect_fits {e : Mp.Node} (passes : expectReason e = none) : (expectVal e).Fits 3 := by
  obtain ⟨m,rfl,few,each⟩ := expectReason_none passes
  unfold expectVal
  refine ⟨?_,fun entry member => ?_⟩
  · have bound : expectMax < 2^32 := by decide
    rw [List.length_map]
    exact lt_of_le_of_lt few bound
  · obtain ⟨row,inside,rfl⟩ := List.mem_map.mp member
    obtain ⟨s,is,named,seq⟩ := each row inside
    have short := sliceNameOk_short named
    have small := isSeq_lt seq
    unfold sliceMax at short
    refine ⟨?_,?_,?_⟩
    · show (row.1.asStr.getD []).length < 2^32
      rw [is]
      simp only [Mp.Node.asStr,Option.getD_some]
      omega
    · omega
    · omega

theorem submittedAs_fits {items : List Mp.Node} (asks : Asks items) (digest : Digest)
    (expects : (items[4]?).bind expectReason = none) {data : Mp.Val} (fits : data.Fits Mp.maxParseDepth) :
    (submittedAs digest items data).Fits (Mp.maxParseDepth+1) := by
  obtain ⟨series,n,id,given,rest,rfl,length,numbered⟩ := asks_iff asks
  unfold idLen at length
  refine ⟨?_,fun v member => ?_⟩
  · cases rest <;> simp
  rw [List.mem_append] at member
  rcases member with member | member
  · simp only [List.mem_cons,List.not_mem_nil,or_false] at member
    rcases member with rfl | rfl | rfl | rfl
    · rcases numbered with ⟨rfl,rfl⟩ | ⟨s,rfl,_⟩
      · trivial
      · have short := (digest.hex s).1
        have ascii := (digest.hex s).2
        show (Mp.utf8 (digest.key s)).length < 2^32
        have each : (Mp.utf8 (digest.key s)).length ≤ 4*(digest.key s).length := by
          generalize digest.key s = text
          induction text with
          | nil => simp [Mp.utf8]
          | cons c text ih =>
            have one := c.utf8Size_le_four
            simp only [Mp.utf8,List.flatMap_cons,List.length_append,List.length_cons,String.length_utf8EncodeChar] at ih ⊢
            omega
        omega
    · rcases numbered with ⟨rfl,rfl⟩ | ⟨s,rfl,number⟩
      · trivial
      · have small := isNumber_lt number
        exact ⟨by omega,by show ((n.asU64.getD 0 : Nat) : Int) < 2^64; omega⟩
    · show id.length < 2^32
      omega
    · exact fits
  · cases rest with
    | nil => simp at member
    | cons e rest =>
      have is : v = expectVal e := by simpa using member
      subst is
      exact Fits_mono (expect_fits (by simpa using expects)) (by decide)

-- A body laid out as its mutations' pieces.
structure Laid (p : Prepared) (all : List (List Piece)) : Prop where
  body : p.body = bare all.flatten
  offsets : p.offsets = starts (fun ps => (bare ps).length) 0 all
  holes : p.holes = holesOf 0 0 all
  hashes : p.passwords.length = (hashesOf all.flatten).length
  proofs : p.proofs.length = all.length
  passing : p.reasons.count none = all.length

theorem starts_concat (start : Nat) (all : List (List Piece)) (ps : List Piece) :
    starts (fun ps => (bare ps).length) start (all++[ps]) =
      starts (fun ps => (bare ps).length) start all++[start+(bare all.flatten).length] := by
  induction all generalizing start with
  | nil => simp [starts,bare]
  | cons first all ih => simp [starts,ih,Nat.add_assoc]

theorem holesOf_concat (i start : Nat) (all : List (List Piece)) (ps : List Piece) :
    holesOf i start (all++[ps]) =
      holesOf i start all++(cuts (start+(bare all.flatten).length) ps).map fun pos => (i+all.length,pos) := by
  induction all generalizing i start with
  | nil => simp [holesOf,bare]
  | cons first all ih => simp [holesOf,ih,Nat.add_assoc,Nat.add_comm 1]

theorem Laid.push {p : Prepared} {all : List (List Piece)} (laid : Laid p all) {m : PreparedMutation} {ps : List Piece}
    (buf : m.buf = bare ps) (holes : m.holes = cuts 0 ps) (passwords : m.passwords.length = (hashesOf ps).length) :
    Laid (p.push (.ok m)) (all++[ps]) := by
  refine ⟨?_,?_,?_,?_,?_,?_⟩
  · simp [Prepared.push,laid.body,buf]
  · rw [starts_concat]
    simp [Prepared.push,laid.offsets,laid.body]
  · have count : p.offsets.length = all.length := by rw [laid.offsets,length_starts]
    rw [holesOf_concat]
    simp only [Prepared.push,laid.holes,holes,count,laid.body,Nat.zero_add]
    have moved := cuts_shift (bare all.flatten).length 0 ps
    rw [Nat.add_zero] at moved
    rw [moved,List.map_map]
    rfl
  · simp [Prepared.push,laid.hashes,passwords]
  · simp [Prepared.push,laid.proofs]
  · simp [Prepared.push,laid.passing]

theorem Laid.reject {p : Prepared} {all : List (List Piece)} (laid : Laid p all) (why : Name) : Laid (p.push (.error why)) all :=
  ⟨laid.body,laid.offsets,laid.holes,laid.hashes,laid.proofs,by simp [Prepared.push,laid.passing]⟩

theorem push_grows (p : Prepared) (r : Except Name PreparedMutation) : p.passwords.length ≤ (p.push r).passwords.length := by
  cases r with
  | error why => exact le_refl _
  | ok m => simp [Prepared.push]

theorem requested_asks {max fuel : Nat} {body : Bytes} {count : Nat} {mutations : List (List Mp.Node)}
    (ok : requested max fuel body count = .ok mutations) : ∀ items ∈ mutations, Asks items := by
  induction fuel generalizing body count mutations with
  | zero =>
    cases body with
    | nil => cases ok; simp
    | cons b body => cases ok
  | succ fuel ih =>
    cases body with
    | nil => cases ok; simp
    | cons b body =>
      unfold requested at ok
      split at ok
      · cases ok
      · cases ok
      · rename_i n rest parsed
        split at ok
        · cases ok
        · rename_i mutation
          split at ok
          · cases ok
          · obtain ⟨others,read,ok⟩ := bind_ok.mp ok
            cases ok
            intro items member
            rcases List.mem_cons.mp member with rfl | member
            · unfold Asks
              cases n <;> simp_all [isMutation,Mp.Node.items]
            · exact ih read items member

theorem starts_get (all : List (List Piece)) (start i : Nat) (inside : i < all.length) :
    (starts (fun ps => (full ps).length) start all)[i]? = some (start+(full (all.take i).flatten).length) := by
  induction all generalizing start i with
  | nil => cases inside
  | cons ps all ih =>
    cases i with
    | zero => simp [starts,full]
    | succ i =>
      rw [starts,List.getElem?_cons_succ,ih _ _ (by simpa using inside)]
      simp [Nat.add_assoc]

theorem writes_map (values : List Mp.Val) : Mp.Val.writes values = (values.map Mp.Val.write).flatten := by
  induction values with
  | nil => rfl
  | cons v values ih => rw [Mp.Val.writes,ih,List.map_cons,List.flatten_cons]

theorem full_flatten (all : List (List Piece)) : full all.flatten = (all.map full).flatten := by
  induction all with
  | nil => rfl
  | cons ps all ih => rw [List.flatten_cons,full_append,ih,List.map_cons,List.flatten_cons]

end Submits
end PhaseLock
