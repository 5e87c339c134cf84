import PhaseLock.ClientWalks
import PhaseLock.ScanPlaces

namespace PhaseLock

def ParamMatch.map {τ υ : Type} (f : τ → υ) : ParamMatch τ → ParamMatch υ
  | .any => .any
  | .eq value => .eq (f value)
  | .starts text => .starts (f text)
  | .range gte gt lte lt => .range (gte.map f) (gt.map f) (lte.map f) (lt.map f)

def SliceMatch.map {τ υ : Type} (f : τ → υ) : SliceMatch τ → SliceMatch υ
  | .named text => .named (f text)
  | .family text params => .family (f text) (params.map (·.map f))

def KeyPattern.map {τ υ : Type} (f : τ → υ) (p : KeyPattern τ) : KeyPattern υ :=
  ⟨p.slice.map (·.map f),p.name.map f,p.locals.map (·.map f)⟩

namespace Twins
open Texts SkipScan Mp Skeleton

-- One placing of a key by the server and the client: seeks that the same keys have reached.
inductive TwinPlace (reverse : Bool) : Scan.Place → Placement → Prop where
  | found : TwinPlace reverse .found .found
  | step : TwinPlace reverse .step .step
  | done : TwinPlace reverse .done .done
  | seek (same : ∀ k, Skeleton.past t' strict' (utf16 k) reverse = Scan.past t strict (utf8 k) reverse) :
    TwinPlace reverse (.seek t strict) (.seek t' strict')

theorem past_twin (t : List Char) (strict : Bool) (k : List Char) (reverse : Bool) :
    Skeleton.past (utf16 t) strict (utf16 k) reverse = Scan.past (utf8 t) strict (utf8 k) reverse := by
  rw [Bool.eq_iff_iff]
  cases reverse
  · simp [Skeleton.past,Scan.past,exact_gt,exact_eq,utf8_lt,utf8_inj]
  · simp [Skeleton.past,Scan.past,exact_gt,exact_eq,utf8_lt,utf8_inj]

theorem seek_twin (t : List Char) (strict : Bool) : TwinPlace reverse (.seek (utf8 t) strict) (.seek (utf16 t) strict) :=
  .seek fun k => past_twin t strict k reverse

-- The bound of a text, each in its own way: the client's moves a character up where the
-- server's moves a byte.
structure TwinEnd (text : List Char) (end_ : Bytes) (end' : Units) : Prop where
  server : prefixBound (utf8 text) = some end_
  client : prefixEnd (utf16 text) = some end'

theorem TwinEnd.below (ends : TwinEnd text end_ end') (b k : List Char) :
    Skeleton.past (utf16 b++end') true (utf16 k) true = Scan.past (utf8 b++end_) true (utf8 k) true := by
  obtain ⟨h,chars,is⟩ : ∃ h, textEnd text = some h ∧ utf16 h = end' := by
    have made := ends.client
    rw [prefixEnd_utf16] at made
    exact Option.map_eq_some_iff.mp made
  subst is
  have client : k < b++h ↔ k < b++text ∨ b++text <+: k := textEnd_bounds (bound_append chars b) k
  have server : utf8 k < utf8 b++end_ ↔ utf8 k < utf8 (b++text) ∨ utf8 (b++text) <+: utf8 k := by
    rw [utf8_append]
    refine Scan.prefixBound_bounds ?_ (utf8 k)
    have made := ends.server
    rw [Scan.prefixBound_bound] at made ⊢
    exact bound_append made (utf8 b)
  rw [utf8_lt,utf8_starts] at server
  rw [Bool.eq_iff_iff,← utf16_append]
  simp only [Skeleton.past,Scan.past,if_true,Bool.not_true,Bool.and_false,Bool.or_false,decide_eq_true_eq]
  rw [exact_gt (.inl List.mem_cons_self),client,server]

-- A separator, and the character just above it.
structure TwinSep (sep : UInt8) (sep' : UInt16) (s up : Char) : Prop where
  some : sep ≠ 0
  server : Sign String.utf8EncodeChar s sep
  client : Sign utf16Char s sep'
  serverUp : utf8 [up] = [sep+1]
  clientUp : utf16 [up] = [sep'+1]

theorem comma_twin : TwinSep Scan.comma Skeleton.comma ',' '-' :=
  ⟨by decide,utf8_sign (by decide),utf16_sign (by decide),by decide,by decide⟩

theorem bang_twin : TwinSep Scan.bang Skeleton.bang '!' '"' :=
  ⟨by decide,utf8_sign (by decide),utf16_sign (by decide),by decide,by decide⟩

theorem TwinSep.text (seps : TwinSep sep sep' s up) : utf8 [s] = [sep] ∧ utf16 [s] = [sep'] := by
  refine ⟨?_,?_⟩
  · rw [utf8,List.flatMap_singleton,seps.server.here]
  · rw [utf16,List.flatMap_singleton,seps.client.here]

-- The upper bound of a value field.
inductive TwinUpper : Option Bytes → Option Units → Bool → Prop where
  | plain (h : Option (List Char)) (open_ : Bool) : TwinUpper (h.map utf8) (h.map utf16) open_
  | ends (text : List Char) (some : text ≠ []) : TwinUpper (prefixBound (utf8 text)) (prefixEnd (utf16 text)) true

structure TwinField (f : Scan.ValueField) (f' : Skeleton.ValueField) : Prop where
  lo : ∃ l : Option (List Char), f.lo = l.map utf8 ∧ f'.lo = l.map utf16
  hi : TwinUpper f.hi f'.hi f.hiOpen
  loOpen : f'.loOpen = f.loOpen
  hiOpen : f'.hiOpen = f.hiOpen
  single : f'.single = f.single
  cmp : f'.cmp = exactFor [f'.lo,f'.hi]

-- Both sides find a value short of the same bound, or neither.
theorem TwinField.under (fields : TwinField f f') (v : List Char) :
    ∃ l : Option (List Char), f.under (utf8 v) = l.map utf8 ∧ f'.short (utf16 v) = l.map utf16 := by
  obtain ⟨l,server,client⟩ := fields.lo
  refine ⟨l.filter fun lo => v < lo || v = lo && f.loOpen,?_,?_⟩
  · rw [Scan.ValueField.under,server,Option.filter_map]
    simp only [Function.comp_def,utf8_lt,utf8_inj]
  · rw [Skeleton.ValueField.short,client,fields.cmp,fields.loOpen,Option.filter_map]
    cases l with
    | none => rfl
    | some lo =>
      have one : some (utf16 v) ∈ [f'.lo,f'.hi] ∨ some (utf16 lo) ∈ [f'.lo,f'.hi] := .inr (by rw [client]; exact List.mem_cons_self)
      simp only [Option.filter_some,Function.comp_def,exact_lt one,exact_eq one]

-- Where a value is past its match, the bound both sides seek back to.
inductive TwinBeyond (open_ : Bool) : Bytes → Units → Prop where
  | plain (h : List Char) : TwinBeyond open_ (utf8 h) (utf16 h)
  | ends (is : open_ = true) (ends : TwinEnd text end_ end') : TwinBeyond open_ end_ end'

theorem TwinField.beyond (fields : TwinField f f') (v : List Char) :
    f.beyond (utf8 v) = none ∧ f'.past (utf16 v) = none ∨
      ∃ h h', f.beyond (utf8 v) = some h ∧ f'.past (utf16 v) = some h' ∧ TwinBeyond f.hiOpen h h' := by
  have upper := fields.hi
  have cmp := fields.cmp
  rw [Scan.ValueField.beyond,Skeleton.ValueField.past,fields.hiOpen]
  generalize f.hi = hi at upper
  generalize at_ : f'.hi = hi' at upper cmp
  generalize f.hiOpen = open_ at upper
  cases upper with
  | plain h =>
    cases h with
    | none => exact .inl ⟨rfl,rfl⟩
    | some h =>
      have one : some (utf16 v) ∈ [f'.lo,some (utf16 h)] ∨ some (utf16 h) ∈ [f'.lo,some (utf16 h)] := .inr (by simp)
      simp only [Option.map_some] at cmp ⊢
      by_cases far : h < v ∨ v = h ∧ open_ = true
      · refine .inr ⟨utf8 h,utf16 h,?_,?_,.plain h⟩
        · rw [Option.filter_some,if_pos (by simpa [utf8_lt,utf8_inj] using far)]
        · rw [Option.filter_some,if_pos (by simpa [cmp,exact_gt one,exact_eq one] using far)]
      · refine .inl ⟨?_,?_⟩
        · rw [Option.filter_some,if_neg (by simpa [utf8_lt,utf8_inj] using far)]
        · rw [Option.filter_some,if_neg (by simpa [cmp,exact_gt one,exact_eq one] using far)]
  | ends text some_ =>
    have server : ∀ h, prefixBound (utf8 text) = some h → ((h < utf8 v ∨ utf8 v = h) ↔ ¬(v < text ∨ text <+: v)) := by
      intro h made
      rw [← utf8_lt,← utf8_starts,← Scan.prefixBound_bounds made (utf8 v),not_lt,le_iff_lt_or_eq,eq_comm (a:=h)]
    cases chars : textEnd text with
    | none =>
      -- nothing is above the texts that start with U+10FFFF alone
      have inside := bound_none char_le_top chars v
      refine .inl ⟨?_,by rw [prefixEnd_utf16,chars]; rfl⟩
      rw [Option.filter_eq_none_iff]
      intro h made
      simp only [Bool.and_true,Bool.or_eq_true,decide_eq_true_eq]
      rw [server h made]
      exact not_not.mpr inside
    | some h' =>
      have client : (h' < v ∨ v = h') ↔ ¬(v < text ∨ text <+: v) := by
        rw [← textEnd_bounds chars v,not_lt,le_iff_lt_or_eq,eq_comm (a:=h')]
      have made' : prefixEnd (utf16 text) = some (utf16 h') := by rw [prefixEnd_utf16,chars]; rfl
      rw [made'] at cmp ⊢
      have one : some (utf16 v) ∈ [f'.lo,some (utf16 h')] ∨ some (utf16 h') ∈ [f'.lo,some (utf16 h')] := .inr (by simp)
      cases made : prefixBound (utf8 text) with
      | none =>
        -- a text with a bound in characters has one in bytes
        have inside := Scan.prefixBound_none made (utf8 h')
        rw [utf8_lt,utf8_starts,← textEnd_bounds chars h'] at inside
        exact absurd inside (lt_irrefl _)
      | some h =>
        by_cases far : v < text ∨ text <+: v
        · refine .inl ⟨?_,?_⟩
          · rw [Option.filter_some,if_neg (by simpa using mt (server h made).mp (not_not.mpr far))]
          · rw [Option.filter_some,if_neg (by simpa [cmp,exact_gt one,exact_eq one] using mt client.mp (not_not.mpr far))]
        · refine .inr ⟨h,utf16 h',?_,?_,.ends rfl ⟨made,made'⟩⟩
          · rw [Option.filter_some,if_pos (by simpa using (server h made).mpr far)]
          · rw [Option.filter_some,if_pos (by simpa [cmp,exact_gt one,exact_eq one] using client.mpr far)]

-- The fields of a pattern, one by one; a key's last value has no separator after it.
inductive TwinFields : List Scan.Field → List Skeleton.Field → Prop where
  | nil : TwinFields [] []
  | literal (low : ∀ c ∈ text, c.val.toNat < 0xd800) (ends : whole = false → TwinEnd text end_ end')
    (more : TwinFields fields fields') :
    TwinFields (.literal (utf8 text) end_ whole :: fields) (.literal (utf16 text) whole :: fields')
  | last (field : TwinField f f') (none : f.sep = 0) (none' : f'.sep = Option.none) : TwinFields [.value f] [.value f']
  | value (field : TwinField f f') (is : f'.sep = some sep') (seps : TwinSep f.sep sep' s up) (more : TwinFields fields fields') :
    TwinFields (.value f :: fields) (.value f' :: fields')

-- The nearest varying value before a place, as text the text placed starts with.
inductive TwinBack (b : List Char) : Option (Nat × UInt8) → List (Skeleton.ValueField × Nat) → Prop where
  | none (clear : ends.find? (fun passed => !passed.1.single) = Option.none) : TwinBack b Option.none ends
  | some (v : List Char) (found : ends.find? (fun passed => !passed.1.single) = Option.some (f',(utf16 v).length))
    (is : f'.sep = Option.some sep') (seps : TwinSep sep sep' s up) (starts : v++[s] <+: b) :
    TwinBack b (Option.some ((utf8 v).length,sep)) ends

theorem TwinBack.longer (held : TwinBack b back ends) (x : List Char) : TwinBack (b++x) back ends := by
  cases held with
  | none clear => exact .none clear
  | some v found is seps starts => exact .some v found is seps (starts.trans (List.prefix_append b x))

theorem skipBack_twin (held : TwinBack b back ends) (r : List Char) (reverse : Bool) :
    TwinPlace reverse (Scan.skipBack (utf8 b++utf8 r) reverse back) (Skeleton.skipBack (utf16 b++utf16 r) reverse ends) := by
  cases held with
  | none clear =>
    rw [Skeleton.skipBack,clear]
    exact .done
  | @some f' sep' sep s up _ v found is seps starts =>
    rw [Skeleton.skipBack,found]
    obtain ⟨tail,rfl⟩ := starts
    obtain ⟨text,text'⟩ := seps.text
    have server : (utf8 (v++[s]++tail)++utf8 r).take ((utf8 v).length+1) = utf8 (v++[s]) := by
      rw [utf8_append,List.append_assoc]
      refine List.take_left' ?_
      rw [utf8_append,text]
      simp
    have client : (utf16 (v++[s]++tail)++utf16 r).take ((utf16 v).length+1) = utf16 (v++[s]) := by
      rw [utf16_append,List.append_assoc]
      refine List.take_left' ?_
      rw [utf16_append,text']
      simp
    cases reverse
    · have serverUp : (utf8 (v++[s]++tail)++utf8 r).take (utf8 v).length++[]++[sep+1] = utf8 (v++[up]) := by
        rw [utf8_append,utf8_append,utf8_append,seps.serverUp,List.append_nil]
        simp
      have clientUp : (utf16 (v++[s]++tail)++utf16 r).take (utf16 v).length++above (Option.some sep') = utf16 (v++[up]) := by
        rw [utf16_append,utf16_append,utf16_append,seps.clientUp]
        simp [above]
      simp only [Scan.skipBack,Scan.seekTo,is,Bool.false_eq_true,if_false,Option.toList_some,serverUp,clientUp]
      exact seek_twin _ false
    · simp only [Scan.skipBack,Scan.seekTo,if_true,Option.toList_none,List.append_nil,server,client]
      exact seek_twin _ true

-- The client's placing of a key whose text up to a field is b.
theorem valueEnd_sep (b r : Units) (sep : UInt16) :
    valueEnd (some sep) (b++r) b.length = (b.length+(r.takeWhile (· ≠ sep)).length,decide (sep ∉ r)) := by
  rw [valueEnd,List.drop_left]
  by_cases member : sep ∈ r
  · obtain ⟨v,tail,rfl,plain⟩ := List.eq_append_cons_of_mem member
    have each : ∀ c ∈ v, c ≠ sep := fun c inside same => plain (same ▸ inside)
    have value : (v++sep :: tail).takeWhile (· ≠ sep) = v := by
      rw [List.takeWhile_append_of_pos (by simpa using each)]
      simp
    have at_ : (v++sep :: tail).findIdx? (· = sep) = some v.length := by
      rw [List.findIdx?_append,List.findIdx?_eq_none_iff.mpr (by simpa using each)]
      simp [List.findIdx?_cons]
    rw [at_,value]
    simp
  · have each : ∀ c ∈ r, c ≠ sep := fun c inside same => member (same ▸ inside)
    have value : r.takeWhile (· ≠ sep) = r := List.takeWhile_eq_self_iff.mpr (by simpa using each)
    rw [List.findIdx?_eq_none_iff.mpr (by simpa using each),value]
    simp [member]

theorem client_literal (reverse : Bool) (b r text : Units) (whole : Bool) (more : List Skeleton.Field)
    (ends : List (Skeleton.ValueField × Nat)) :
    Skeleton.placeFields reverse (b++r) (.literal text whole :: more) b.length ends =
      if text <+: r ∧ (whole = true → r.length = text.length) then
        Skeleton.placeFields reverse (b++r) more (b.length+text.length) ends
      else if unitCompare r text < 0 then if reverse then Skeleton.skipBack (b++r) reverse ends else .seek (b++text) false
      else if !reverse then Skeleton.skipBack (b++r) reverse ends
      else if whole then .seek (b++text) false
      else .seek (b++(prefixEnd text).getD []) true := by
  simp [Skeleton.placeFields]

theorem client_value {b r v : Units} {f : Skeleton.ValueField} (stops : valueEnd f.sep (b++r) b.length = (b.length+v.length,short))
    (starts : v <+: r) (reverse : Bool) (more : List Skeleton.Field) (ends : List (Skeleton.ValueField × Nat)) :
    Skeleton.placeFields reverse (b++r) (.value f :: more) b.length ends = match f.short v with
      | some lo =>
        if reverse then Skeleton.skipBack (b++r) reverse ends
        else if !f.loOpen then .seek (b++lo) false
        else if f.sep.isNone then .seek (b++lo) true
        else .seek (b++lo++above f.sep) false
      | none => match f.past v with
        | some hi =>
          if !reverse then Skeleton.skipBack (b++r) reverse ends
          else if f.hiOpen then .seek (b++hi) true
          else if f.sep.isNone then .seek (b++hi) false
          else .seek (b++hi++above f.sep) true
        | none =>
          if short then .step
          else Skeleton.placeFields reverse (b++r) more (b.length+v.length+if f.sep.isNone then 0 else 1)
            ((f,b.length+v.length) :: ends) := by
  have value : ((b++r).take (b.length+v.length)).drop b.length = v := by
    rw [List.take_length_add_append,List.drop_left]
    exact (List.prefix_iff_eq_take.mp starts).symm
  rw [Skeleton.placeFields,stops]
  dsimp only
  rewrite [value,List.take_left]
  cases f.short v <;> cases f.past v <;> rfl

-- A value field whose value both sides cut alike places a key alike where the fields after
-- it do.
theorem value_twin {f : Scan.ValueField} {f' : Skeleton.ValueField} (field : TwinField f f') {b r : List Char} (v : List Char)
    (short : Bool)
    (seps : f.sep = 0 ∧ f'.sep = none ∨ ∃ sep' s up, f'.sep = some sep' ∧ TwinSep f.sep sep' s up)
    (server : Scan.valueText f.sep (utf8 r) = utf8 v) (cut : Scan.cutShort f.sep (utf8 r) = short)
    (client : valueEnd f'.sep (utf16 b++utf16 r) (utf16 b).length = ((utf16 b).length+(utf16 v).length,short))
    (starts : v <+: r) (held : TwinBack b back ends) (more : List Scan.Field) (more' : List Skeleton.Field)
    (go : short = false → TwinPlace reverse
      (Scan.placeFields reverse (utf8 b++utf8 r) more ((utf8 b).length+(utf8 v).length+if f.sep = 0 then 0 else 1)
        (if f.single then back else some ((utf8 b).length+(utf8 v).length,f.sep)))
      (Skeleton.placeFields reverse (utf16 b++utf16 r) more' ((utf16 b).length+(utf16 v).length+if f'.sep.isNone then 0 else 1)
        ((f',(utf16 b).length+(utf16 v).length) :: ends))) :
    TwinPlace reverse (Scan.placeFields reverse (utf8 b++utf8 r) (.value f :: more) (utf8 b).length back)
      (Skeleton.placeFields reverse (utf16 b++utf16 r) (.value f' :: more') (utf16 b).length ends) := by
  -- a seek to a bound and past the keys that go on from it with a separator
  have on : ∀ (t : List Char) (bare sepd : Bool), TwinPlace reverse
      (if f.sep = 0 then .seek (utf8 b++utf8 t) bare else .seek (utf8 b++utf8 t++[f.sep+1]) sepd)
      (if f'.sep.isNone then .seek (utf16 b++utf16 t) bare else .seek (utf16 b++utf16 t++above f'.sep) sepd) := by
    intro t bare sepd
    rcases seps with ⟨none,none'⟩ | ⟨sep',s,up,is,seps⟩
    · rw [if_pos none,none',if_pos Option.isNone_none,← utf8_append,← utf16_append]
      exact seek_twin _ bare
    · have serverUp : utf8 b++utf8 t++[f.sep+1] = utf8 (b++t++[up]) := by rw [utf8_append,utf8_append,seps.serverUp]
      have clientUp : utf16 b++utf16 t++above (some sep') = utf16 (b++t++[up]) := by
        rw [utf16_append,utf16_append,seps.clientUp]
        rfl
      rw [if_neg seps.some,is,if_neg (by simp),serverUp,clientUp]
      exact seek_twin _ sepd
  rw [client_value client (by rw [utf16_starts]; exact starts)]
  obtain ⟨low,low1,low2⟩ := field.under v
  cases low with
  | some lo =>
    rw [Scan.place_under (by rw [server]; exact low1),low2,Option.map_some,field.loOpen]
    dsimp only
    cases reverse
    · cases f.loOpen
      · simp only [Bool.false_eq_true,if_false,Bool.not_false,if_true,← utf8_append,← utf16_append]
        exact seek_twin _ false
      · simp only [Bool.false_eq_true,if_false,Bool.not_true]
        exact on lo true false
    · exact skipBack_twin held r true
  | none =>
    have low1 : f.under (Scan.valueText f.sep (utf8 r)) = none := by rw [server]; exact low1
    rw [low2,Option.map_none]
    dsimp only
    rcases field.beyond v with ⟨high1,high2⟩ | ⟨h,h',high1,high2,twin⟩
    · rw [Scan.place_inside low1 (by rw [server]; exact high1),high2,cut,server]
      dsimp only
      cases short
      · exact go rfl
      · exact .step
    · rw [Scan.place_beyond low1 (by rw [server]; exact high1),high2,field.hiOpen]
      dsimp only
      cases reverse
      · exact skipBack_twin held r false
      · cases twin with
        | plain h =>
          cases f.hiOpen
          · simp only [Bool.false_eq_true,if_false,Bool.not_true]
            exact on h false true
          · simp only [Bool.false_eq_true,if_false,Bool.not_true,if_true,← utf8_append,← utf16_append]
            exact seek_twin _ true
        | ends is ends =>
          rw [is]
          exact .seek fun k => ends.below b k

theorem unit_lt {text : List Char} (low : ∀ c ∈ text, c.val.toNat < 0xd800) (r : List Char) :
    unitCompare (utf16 r) (utf16 text) < 0 ↔ r < text := by
  have plain : highUnit (utf16 text) = false := by
    rw [highUnit,List.any_eq_false]
    intro x member
    obtain ⟨c,inside,is⟩ := List.mem_flatMap.mp member
    have small := low c inside
    rw [utf16Char,if_pos (by omega),List.mem_singleton] at is
    rw [is,decide_eq_true_eq,UInt16.le_iff_toNat_le,unit_toNat (by omega)]
    change ¬0xd800 ≤ c.val.toNat
    omega
  rw [← compareKeys_lt,← Int.sign_neg_iff,unitCompare_sign (.inr plain),Int.sign_neg_iff]

-- Both sides place a key alike.
theorem placed_twin (twins : TwinFields fields fields') (reverse : Bool) (b r : List Char) (held : TwinBack b back ends) :
    TwinPlace reverse (Scan.placeFields reverse (utf8 b++utf8 r) fields (utf8 b).length back)
      (Skeleton.placeFields reverse (utf16 b++utf16 r) fields' (utf16 b).length ends) := by
  induction twins generalizing b r back ends with
  | nil =>
    rw [Scan.placeFields,Skeleton.placeFields]
    exact .found
  | @literal text whole end_ end' fields fields' low bounds more ih =>
    rw [Scan.place_literal,client_literal]
    have fits : utf8 text <+: utf8 r ∧ (whole = true → (utf8 r).length = (utf8 text).length) ↔
        text <+: r ∧ (whole = true → r = text) := by
      rw [utf8_starts]
      refine and_congr_right fun starts => imp_congr_right fun _ => ?_
      rw [← utf8_inj]
      exact ⟨fun same => ((utf8_starts _ _).mpr starts).eq_of_length same.symm |>.symm,fun same => congrArg _ same⟩
    have fits' : utf16 text <+: utf16 r ∧ (whole = true → (utf16 r).length = (utf16 text).length) ↔
        text <+: r ∧ (whole = true → r = text) := by
      rw [utf16_starts]
      refine and_congr_right fun starts => imp_congr_right fun _ => ?_
      rw [← utf16_inj]
      exact ⟨fun same => ((utf16_starts _ _).mpr starts).eq_of_length same.symm |>.symm,fun same => congrArg _ same⟩
    simp only [fits,fits',utf8_lt,unit_lt low]
    by_cases here : text <+: r ∧ (whole = true → r = text)
    · rw [if_pos here,if_pos here]
      obtain ⟨⟨tail,rfl⟩,_⟩ := here
      have on := ih (b++text) tail (held.longer text)
      rwa [utf8_append,utf16_append,List.append_assoc,List.append_assoc,← utf8_append text,← utf16_append text,
        List.length_append,List.length_append] at on
    · rw [if_neg here,if_neg here]
      by_cases short : r < text
      · rw [if_pos short,if_pos short]
        cases reverse
        · simp only [Bool.false_eq_true,if_false,← utf8_append,← utf16_append]
          exact seek_twin _ false
        · exact skipBack_twin held r true
      · rw [if_neg short,if_neg short]
        cases reverse
        · exact skipBack_twin held r false
        · cases whole
          · obtain ends := bounds rfl
            rw [ends.client]
            exact .seek fun k => ends.below b k
          · simp only [Bool.not_true,Bool.false_eq_true,if_false,if_true,← utf8_append,← utf16_append]
            exact seek_twin _ false
  | @last f f' field none none' =>
    refine value_twin field r false (.inl ⟨none,none'⟩) ?_ ?_ ?_ List.prefix_rfl held [] [] fun _ => ?_
    · simp [Scan.valueText,none]
    · simp [Scan.cutShort,none]
    · simp [valueEnd,none']
    · rw [Scan.placeFields,Skeleton.placeFields]
      exact .found
  | @value f f' sep' s up fields fields' field is seps more ih =>
    have value : Scan.valueText f.sep (utf8 r) = utf8 (r.takeWhile (· ≠ s)) := by
      rw [Scan.valueText,if_neg seps.some]
      exact seps.server.takeWhile r
    have value' : (utf16 r).takeWhile (· ≠ sep') = utf16 (r.takeWhile (· ≠ s)) := seps.client.takeWhile r
    refine value_twin field (r.takeWhile (· ≠ s)) (decide (s ∉ r)) (.inr ⟨sep',s,up,is,seps⟩) value ?_ ?_
      (List.takeWhile_prefix _) held _ _ fun whole => ?_
    · have same : f.sep ∈ utf8 r ↔ s ∈ r := seps.server.mem_iff r
      simp [Scan.cutShort,seps.some,same]
    · have same : sep' ∈ utf16 r ↔ s ∈ r := seps.client.mem_iff r
      rw [is,valueEnd_sep,value']
      simp only [same]
    · have member : s ∈ r := by simpa using whole
      obtain ⟨v,tail,rfl,plain⟩ := List.eq_append_cons_of_mem member
      have cut : (v++s :: tail).takeWhile (· ≠ s) = v := by
        have each : ∀ c ∈ v, c ≠ s := fun c inside same => plain (same ▸ inside)
        rw [List.takeWhile_append_of_pos (by simpa using each)]
        simp
      obtain ⟨text,text'⟩ := seps.text
      have on := @ih (if f.single then back else some ((utf8 b).length+(utf8 v).length,f.sep))
        ((f',(utf16 b).length+(utf16 v).length) :: ends) (b++v++[s]) tail ?_
      · have whole8 : utf8 (b++v++[s])++utf8 tail = utf8 b++utf8 (v++s :: tail) := by
          rw [← utf8_append,← utf8_append]
          simp
        have whole16 : utf16 (b++v++[s])++utf16 tail = utf16 b++utf16 (v++s :: tail) := by
          rw [← utf16_append,← utf16_append]
          simp
        rw [whole8,whole16] at on
        rw [cut,if_neg seps.some,is,Option.isNone_some,if_neg Bool.false_ne_true]
        have long8 : (utf8 (b++v++[s])).length = (utf8 b).length+(utf8 v).length+1 := by simp [text,Nat.add_assoc]
        have long16 : (utf16 (b++v++[s])).length = (utf16 b).length+(utf16 v).length+1 := by simp [text',Nat.add_assoc]
        rwa [long8,long16] at on
      · cases single : f.single
        · have found : ((f',(utf16 b).length+(utf16 v).length) :: ends).find? (fun passed => !passed.1.single) =
              some (f',(utf16 (b++v)).length) := by
            rw [List.find?_cons_of_pos (by simp [field.single,single]),utf16_append,List.length_append]
          have size : (utf8 b).length+(utf8 v).length = (utf8 (b++v)).length := by rw [utf8_append,List.length_append]
          rw [if_neg Bool.false_ne_true,size]
          exact .some (b++v) found is seps List.prefix_rfl
        · have skipped : ((f',(utf16 b).length+(utf16 v).length) :: ends).find? (fun passed => !passed.1.single) =
              ends.find? (fun passed => !passed.1.single) := List.find?_cons_of_neg (by simp [field.single,single])
          rw [if_pos rfl]
          cases held with
          | none clear => exact .none (skipped.trans clear)
          | some v' found is' seps' starts =>
            exact .some v' (skipped.trans found) is' seps' (starts.trans (by simp))

end Twins
end PhaseLock
