import Mathlib.Data.List.Sublists
import PhaseLock.ScanTwins
import PhaseLock.Scans

namespace PhaseLock
namespace Twins
open Texts SkipScan Mp Skeleton
variable {σ : Type}

structure TwinPattern (p : Scan.Pattern) (c : CompiledPattern) : Prop where
  head : ∃ h, p.head = utf8 h ∧ c.head = utf16 h ∧ (h = [] ∨ ∃ end_ end', TwinEnd h end_ end')
  fields : TwinFields p.fields c.fields

theorem end_sep {s : Char} (low : s.val.toNat < 0x7f) (text : List Char) :
    ∃ end_ end', TwinEnd (text++[s]) end_ end' := by
  have other : s ≠ topChar := by
    rw [Ne,char_eq,topChar_val]
    omega
  exact ⟨_,_,Scan.prefixBound_sign (by omega) text,prefixEnd_other other text⟩

-- The tighter lower bound of a range, and the tighter upper one.
theorem low_twin (gte gt : Option (List Char)) : ∃ (l : Option (List Char)) (o : Bool),
    (∀ lte lt sep, (Scan.valueField (.range (gte.map utf8) (gt.map utf8) lte lt) sep).lo = l.map utf8 ∧
      (Scan.valueField (.range (gte.map utf8) (gt.map utf8) lte lt) sep).loOpen = o) ∧
    ∀ lte lt sep, (Skeleton.valueField (.range (gte.map utf16) (gt.map utf16) lte lt) sep).lo = l.map utf16 ∧
      (Skeleton.valueField (.range (gte.map utf16) (gt.map utf16) lte lt) sep).loOpen = o := by
  cases gt with
  | none => exact ⟨gte,false,fun _ _ _ => ⟨rfl,rfl⟩,fun _ _ _ => ⟨rfl,rfl⟩⟩
  | some g =>
    have server : (gte.map utf8).all (· ≤ utf8 g) = gte.all (· ≤ g) := by
      rw [Option.all_map]
      simp only [← not_lt,utf8_lt]
    have client : (gte.map utf16).all (fun lo => 0 ≤ compareKeys (utf16 g) lo) = gte.all (· ≤ g) := by
      rw [Option.all_map]
      simp only [← not_lt,compareKeys_lt]
    cases tight : gte.all (· ≤ g)
    · refine ⟨gte,false,fun _ _ _ => ?_,fun _ _ _ => ?_⟩
      · simp [Scan.valueField,server,tight]
      · simp [Skeleton.valueField,client,tight]
    · refine ⟨some g,true,fun _ _ _ => ?_,fun _ _ _ => ?_⟩
      · simp [Scan.valueField,server,tight]
      · simp [Skeleton.valueField,client,tight]

theorem high_twin (lte lt : Option (List Char)) : ∃ (h : Option (List Char)) (o : Bool),
    (∀ gte gt sep, (Scan.valueField (.range gte gt (lte.map utf8) (lt.map utf8)) sep).hi = h.map utf8 ∧
      (Scan.valueField (.range gte gt (lte.map utf8) (lt.map utf8)) sep).hiOpen = o) ∧
    ∀ gte gt sep, (Skeleton.valueField (.range gte gt (lte.map utf16) (lt.map utf16)) sep).hi = h.map utf16 ∧
      (Skeleton.valueField (.range gte gt (lte.map utf16) (lt.map utf16)) sep).hiOpen = o := by
  cases lt with
  | none => exact ⟨lte,false,fun _ _ _ => ⟨rfl,rfl⟩,fun _ _ _ => ⟨rfl,rfl⟩⟩
  | some l =>
    have server : (lte.map utf8).all (utf8 l ≤ ·) = lte.all (l ≤ ·) := by
      rw [Option.all_map]
      simp only [← not_lt,utf8_lt]
    have client : (lte.map utf16).all (fun hi => compareKeys (utf16 l) hi ≤ 0) = lte.all (l ≤ ·) := by
      rw [Option.all_map]
      simp only [← not_lt,compareKeys_gt]
    cases tight : lte.all (l ≤ ·)
    · refine ⟨lte,false,fun _ _ _ => ?_,fun _ _ _ => ?_⟩
      · simp [Scan.valueField,server,tight]
      · simp [Skeleton.valueField,client,tight]
    · refine ⟨some l,true,fun _ _ _ => ?_,fun _ _ _ => ?_⟩
      · simp [Scan.valueField,server,tight]
      · simp [Skeleton.valueField,client,tight]

theorem valueField_twin (m : ParamMatch (List Char)) (sep : UInt8) (sep' : Option UInt16) :
    TwinField (Scan.valueField (m.map utf8) sep) (Skeleton.valueField (m.map utf16) sep') := by
  cases m with
  | any => exact ⟨⟨none,rfl,rfl⟩,.plain none false,rfl,rfl,rfl,rfl⟩
  | eq value => exact ⟨⟨some value,rfl,rfl⟩,.plain (some value) false,rfl,rfl,rfl,rfl⟩
  | starts text =>
    rw [ParamMatch.map,ParamMatch.map,Scan.valueField,Skeleton.valueField]
    by_cases empty : text = []
    · subst empty
      exact ⟨⟨none,rfl,rfl⟩,.plain none false,rfl,rfl,rfl,rfl⟩
    · have server : utf8 text ≠ [] := fun none => empty (utf8_inj.mp none)
      have client : utf16 text ≠ [] := fun none => empty (utf16_inj.mp none)
      rw [if_neg server,if_neg client]
      exact ⟨⟨some text,rfl,rfl⟩,.ends text empty,rfl,rfl,rfl,rfl⟩
  | range gte gt lte lt =>
    obtain ⟨l,lo,low,low'⟩ := low_twin gte gt
    obtain ⟨h,ho,high,high'⟩ := high_twin lte lt
    refine ⟨⟨l,(low _ _ sep).1,(low' _ _ sep').1⟩,?_,?_,?_,rfl,rfl⟩
    · have is := (high (gte.map utf8) (gt.map utf8) sep).1
      have is' := (high' (gte.map utf16) (gt.map utf16) sep').1
      rw [ParamMatch.map,ParamMatch.map,is,is']
      exact .plain h _
    · exact (low' _ _ sep').2.trans (low _ _ sep).2.symm
    · exact (high' _ _ sep').2.trans (high _ _ sep).2.symm

theorem server_sep (m : ParamMatch Bytes) (sep : UInt8) : (Scan.valueField m sep).sep = sep := by
  cases m with
  | starts text =>
    rw [Scan.valueField]
    split <;> rfl
  | _ => rfl

theorem client_sep (m : ParamMatch Units) (sep : Option UInt16) : (Skeleton.valueField m sep).sep = sep := by
  cases m with
  | starts text =>
    rw [Skeleton.valueField]
    split <;> rfl
  | _ => rfl

-- The last of the value fields is followed by a separator, or is a key's last value.
theorem valueFields_twin {last : UInt8} {last' : Option UInt16} (more : List Scan.Field) (more' : List Skeleton.Field)
    (ends : last = 0 ∧ last' = none ∧ more = [] ∧ more' = [] ∨ ∃ sep' s up, last' = some sep' ∧ TwinSep last sep' s up)
    (rest : TwinFields more more') (ms : List (ParamMatch (List Char))) :
    TwinFields (Scan.valueFields Scan.comma last (ms.map (·.map utf8))++more)
      (Skeleton.valueFields Skeleton.comma last' (ms.map (·.map utf16))++more') := by
  induction ms with
  | nil => exact rest
  | cons m ms ih =>
    cases ms with
    | nil =>
      have field := valueField_twin m last last'
      have server := server_sep (m.map utf8) last
      have client := client_sep (m.map utf16) last'
      rcases ends with ⟨none,none',rfl,rfl⟩ | ⟨sep',s,up,is,seps⟩
      · exact .last field (server.trans none) (client.trans none')
      · exact .value field (client.trans is) (server.symm ▸ seps) rest
    | cons m' ms =>
      exact .value (valueField_twin m _ _) (client_sep _ _) ((server_sep (m.map utf8) Scan.comma).symm ▸ comma_twin) ih

theorem slice_twin (slice : SliceMatch (List Char)) :
    (∃ h, (Scan.sliceFields (slice.map utf8)).1 = utf8 h ∧ (Skeleton.sliceFields (slice.map utf16)).1 = utf16 h ∧
      ∃ end_ end', TwinEnd h end_ end') ∧
    ∀ more more', TwinFields more more' → TwinFields ((Scan.sliceFields (slice.map utf8)).2++more)
      ((Skeleton.sliceFields (slice.map utf16)).2++more') := by
  have bang8 : utf8 ['!'] = [Scan.bang] := by decide
  have bang16 : utf16 ['!'] = [Skeleton.bang] := by decide
  have colon8 : utf8 [':'] = [Scan.colon] := by decide
  have colon16 : utf16 [':'] = [Skeleton.colon] := by decide
  cases slice with
  | named text =>
    refine ⟨⟨text++['!'],?_,?_,end_sep (by decide) text⟩,fun _ _ more => more⟩
    · rw [utf8_append,bang8]; rfl
    · rw [utf16_append,bang16]; rfl
  | family text params =>
    cases params with
    | nil =>
      refine ⟨⟨text++['!'],?_,?_,end_sep (by decide) text⟩,fun _ _ more => more⟩
      · rw [utf8_append,bang8]; rfl
      · rw [utf16_append,bang16]; rfl
    | cons m params =>
      refine ⟨⟨text++[':'],?_,?_,end_sep (by decide) text⟩,fun more more' twins => ?_⟩
      · rw [utf8_append,colon8]; rfl
      · rw [utf16_append,colon16]; rfl
      · exact valueFields_twin more more' (.inr ⟨_,_,_,rfl,bang_twin⟩) twins (m :: params)

-- A pattern compiles on both sides, or is refused for the same reason.
theorem compile_twin (kp : KeyPattern (List Char)) (names : ∀ name, kp.name = some name → ∀ c ∈ name, c.val.toNat < 0xd800) :
    (∃ message, Scan.fromJs (kp.map utf8) = .error message ∧ compilePattern (kp.map utf16) = .error message) ∨
      ∃ p c, Scan.fromJs (kp.map utf8) = .ok p ∧ compilePattern (kp.map utf16) = .ok c ∧ TwinPattern p c := by
  obtain ⟨slice,name,locals⟩ := kp
  have none8 : (locals.map (·.map utf8)).isEmpty = locals.isEmpty := by simp
  have none16 : (locals.map (·.map utf16)).isEmpty = locals.isEmpty := by simp
  cases slice with
  | none =>
    simp only [Scan.fromJs,compilePattern,KeyPattern.map,Option.map_none,Option.isSome_map,none8,none16]
    cases refused : name.isSome || !locals.isEmpty
    · exact .inr ⟨_,_,rfl,rfl,⟨[],rfl,rfl,.inl rfl⟩,.nil⟩
    · exact .inl ⟨_,rfl,rfl⟩
  | some slice =>
    obtain ⟨⟨h,head8,head16,ends⟩,fields⟩ := slice_twin slice
    simp only [Scan.fromJs,compilePattern,KeyPattern.map,Option.map_some]
    cases name with
    | none =>
      simp only [Option.map_none,none8,none16]
      cases plain : locals.isEmpty
      · exact .inl ⟨_,rfl,rfl⟩
      · have own := fields [] [] .nil
        rw [List.append_nil,List.append_nil] at own
        exact .inr ⟨_,_,rfl,rfl,⟨h,head8,head16,.inr ends⟩,own⟩
    | some name =>
      simp only [Option.map_some]
      refine .inr ⟨_,_,rfl,rfl,⟨h,head8,head16,.inr ends⟩,fields _ _ ?_⟩
      have low := names name rfl
      have params : TwinFields (Scan.valueFields Scan.comma 0 (locals.map (·.map utf8)))
          (Skeleton.valueFields Skeleton.comma none (locals.map (·.map utf16))) := by
        have := valueFields_twin [] [] (.inl ⟨rfl,rfl,rfl,rfl⟩) .nil locals
        rwa [List.append_nil,List.append_nil] at this
      cases locals with
      | nil => exact @TwinFields.literal name _ _ [] _ _ low (fun whole => absurd whole (by simp)) params
      | cons m ms =>
        obtain ⟨end_,end',made⟩ := end_sep (s:= ':') (by decide) name
        have colon8 : utf8 name++[Scan.colon] = utf8 (name++[':']) := by rw [utf8_append]; rfl
        have colon16 : utf16 name++[Skeleton.colon] = utf16 (name++[':']) := by rw [utf16_append]; rfl
        have plain : ∀ c ∈ name++[':'], c.val.toNat < 0xd800 := by
          intro c member
          rcases List.mem_append.mp member with inside | last
          · exact low c inside
          · rw [List.mem_singleton.mp last]; decide
        have bound8 : (prefixBound (utf8 name++[Scan.colon])).getD [] = end_ := by rw [colon8,made.server]; rfl
        refine (?_ : TwinFields (.literal (utf8 name++[Scan.colon]) ((prefixBound (utf8 name++[Scan.colon])).getD []) false :: _)
          (.literal (utf16 name++[Skeleton.colon]) false :: _))
        rw [bound8,colon8,colon16]
        exact .literal plain (fun _ => made) params

theorem place_twin (twins : TwinPattern p c) (k : List Char) (reverse : Bool) :
    TwinPlace reverse (p.place (utf8 k) reverse) (placeKey c (utf16 k) reverse) := by
  obtain ⟨h,server,client,_⟩ := twins.head
  rw [Scan.Pattern.place,placeKey,server,client]
  by_cases under : h <+: k
  · rw [if_pos ((utf8_starts h k).mpr under),if_pos ((utf16_starts h k).mpr under)]
    obtain ⟨rest,rfl⟩ := under
    rw [utf8_append,utf16_append]
    exact placed_twin twins.fields reverse h rest (.none rfl)
  · rw [if_neg (mt (utf8_starts h k).mp under),if_neg (mt (utf16_starts h k).mp under)]
    exact .done

-- Where a key stands for both sides.
def stand (p : Scan.Pattern) (reverse : Bool) (k : Key) : Stand Key :=
  match p.place (utf8 k) reverse with
  | .found => .found
  | .step => .step
  | .done => .done
  | .seek t strict => .seek (fun k => Scan.past t strict (utf8 k) reverse)

theorem server_alike (p : Scan.Pattern) (reverse : Bool) (k : Key) : Alike utf8 (stand p reverse k) (p.stand reverse (utf8 k)) := by
  unfold stand Scan.Pattern.stand
  cases p.place (utf8 k) reverse with
  | found => exact .found
  | step => exact .step
  | done => exact .done
  | seek t strict => exact .seek fun _ => rfl

theorem client_alike (twins : TwinPattern p c) (reverse : Bool) (k : Key) :
    Alike utf16 (stand p reverse k) (c.stand reverse (utf16 k)) := by
  have one := place_twin twins k reverse
  unfold stand CompiledPattern.stand
  generalize p.place (utf8 k) reverse = server at one
  generalize placeKey c (utf16 k) reverse = client at one
  cases one with
  | found => exact .found
  | step => exact .step
  | done => exact .done
  | seek same => exact .seek same

-- The keys of one store, as each side holds them.
def clientKeys (kv : OrderedMap Key Bytes) : List Units := kv.scan.map fun row => utf16 row.1

theorem clientKeys_sorted (kv : OrderedMap Key Bytes) : Skeleton.Sorted (clientKeys kv) := by
  refine List.pairwise_map.mpr ((OrderedMap.scan_sorted kv).imp fun less => ?_)
  rw [rk,rk,utf16_ranks,utf16_ranks]
  exact ranks_code.mono less

-- The rows a walk has ahead of it on each side.
structure Ahead (kv : OrderedMap Key Bytes) (reverse : Bool) (rows : List (Key × Bytes)) (server : List (Bytes × Bytes)) (j : Int) :
    Prop where
  suffix : rows <:+ if reverse then kv.scan.reverse else kv.scan
  server : server = rows.map fun row => (utf8 row.1,row.2)
  inside : InRange (clientKeys kv) reverse j
  client : view (clientKeys kv) reverse j = rows.map fun row => utf16 row.1

theorem server_ahead (kv : OrderedMap Key Bytes) (reverse : Bool) : Scan.ahead (Scan.stored kv) reverse =
    (if reverse then kv.scan.reverse else kv.scan).map fun row => (utf8 row.1,row.2) := by
  cases reverse <;> simp [Scan.ahead,Scan.stored,List.map_reverse]

theorem client_ahead (kv : OrderedMap Key Bytes) (reverse : Bool) : Skeleton.ahead (clientKeys kv) reverse =
    (if reverse then kv.scan.reverse else kv.scan).map fun row => utf16 row.1 := by
  cases reverse <;> simp [Skeleton.ahead,clientKeys,List.map_reverse]

theorem seek_ahead (kv : OrderedMap Key Bytes) (reverse strict : Bool)
    (same : ∀ k, Skeleton.past t' strict (utf16 k) reverse = Scan.past t strict (utf8 k) reverse) :
    ∃ rows, Ahead kv reverse rows (Scan.Cursor.seek (Scan.stored kv) reverse (some t) strict)
      (ArrayCursor.seek (clientKeys kv) reverse (some t') strict) := by
  obtain ⟨inside,lands⟩ := seek_view (clientKeys_sorted kv) reverse t' strict
  refine ⟨(if reverse then kv.scan.reverse else kv.scan).dropWhile fun row => !Scan.past t strict (utf8 row.1) reverse,
    List.dropWhile_suffix _,?_,inside,?_⟩
  · rw [Scan.seek_past,server_ahead,List.dropWhile_map]
    rfl
  · rw [lands,client_ahead,List.dropWhile_map]
    simp only [Function.comp_def,same]

theorem start_ahead (twins : TwinPattern p c) (kv : OrderedMap Key Bytes) (reverse : Bool) (after : Option Key) :
    ∃ rows, Ahead kv reverse rows (Scan.start (Scan.stored kv) p reverse (after.map utf8))
      (Skeleton.start (clientKeys kv) c reverse (after.map utf16)) := by
  obtain ⟨h,server,client,ends⟩ := twins.head
  cases after with
  | some a => exact seek_ahead kv reverse true fun k => past_twin a true k reverse
  | none =>
    rw [Option.map_none,Option.map_none,Scan.start,Skeleton.start,server,client]
    cases reverse
    · exact seek_ahead kv false false fun k => past_twin h false k false
    · rw [if_pos rfl,if_pos rfl]
      rcases ends with rfl | ⟨end_,end',ends⟩
      · have none8 : prefixBound (utf8 []) = none := rfl
        have none16 : prefixEnd (utf16 []) = none := by rw [prefixEnd_utf16]; rfl
        rw [none8,none16]
        obtain ⟨inside,whole⟩ := seek_none (clientKeys kv) true false
        refine ⟨kv.scan.reverse,List.suffix_rfl,?_,inside,?_⟩
        · exact server_ahead kv true
        · exact whole.trans (client_ahead kv true)
      · rw [ends.server,ends.client]
        exact seek_ahead kv true true fun k => ends.below [] k

-- Both sides' walks end and make of their visits what comes of the same rows in turn.
def Agree (kv : OrderedMap Key Bytes) (p : Scan.Pattern) (c : CompiledPattern) (reverse : Bool) (after : Option Key)
    (rows : List (Key × Bytes)) : Prop :=
  (∀ (σ : Type) (budget : Nat) (visit : Bytes → Bytes → σ → Scan.Visit × σ) (s : σ), ∃ n, ∀ fuel, n ≤ fuel →
    Scan.walk (Scan.stored kv) p reverse (after.map utf8) budget visit fuel s =
      some (Scan.ended (Scan.visitAll visit (rows.map fun row => (utf8 row.1,row.2)) s))) ∧
  ∀ (σ : Type) (budget : Nat) (visit : Units → σ → Bool × σ) (s : σ), ∃ n, ∀ fuel, n ≤ fuel →
    walkPattern (clientKeys kv) c reverse (after.map utf16) budget visit fuel s =
      some (visitEach visit (rows.map fun row => utf16 row.1) s)

theorem walks_agree (twins : TwinPattern p c) (kv : OrderedMap Key Bytes) (reverse : Bool) (after : Option Key) :
    ∃ rows, rows.Sublist (if reverse then kv.scan.reverse else kv.scan) ∧ Agree kv p c reverse after rows := by
  obtain ⟨ahead_,suffix,server,inside,client⟩ := start_ahead twins kv reverse after
  refine ⟨visited (stand p reverse) ahead_,?_,?_,?_⟩
  · exact ((visited_sublist _ _).trans List.filter_sublist).trans suffix.sublist
  · intro σ budget visit s
    refine ⟨(Scan.stored kv).length+1,fun fuel enough => ?_⟩
    have same := visited_alike (server_alike p reverse) (fun value : Bytes => value) ahead_
    rw [Scan.walk_run (Scan.stored_sorted kv) p reverse _ budget visit (by omega),server,same]
  · intro σ budget visit s
    have size := suffix.length_le
    refine ⟨ahead_.length+1,fun fuel enough => ?_⟩
    have on : view (clientKeys kv) reverse (Skeleton.start (clientKeys kv) c reverse (after.map utf16)) <:+
        Skeleton.ahead (clientKeys kv) reverse := by
      rw [client,client_ahead]
      exact suffix.map _
    rw [walkPattern,walkFrom_handed (clientKeys_sorted kv) c reverse budget visit inside on (by rw [client,List.length_map]; omega),
      client,handed,Skeleton.rows,List.map_map]
    have same := visited_alike (client_alike twins reverse) (fun _ : Bytes => ()) ahead_
    simp only [Function.comp_def]
    rw [same,List.map_map]
    rfl

theorem picks_twin (twins : TwinPattern p c) (k : Key) : matchesPattern c (utf16 k) = p.picks (utf8 k) := by
  have one := place_twin twins k false
  rw [matchesPattern,Scan.Pattern.picks,Bool.eq_iff_iff,decide_eq_true_eq,decide_eq_true_eq]
  generalize p.place (utf8 k) false = server at one
  generalize placeKey c (utf16 k) false = client at one
  cases one <;> simp

-- A span covers the same keys on both sides.
theorem covers_twin (twins : TwinPattern p c) (reverse : Bool) (from_ to_ : Option Key) (k : Key) :
    Scan.Span.covers ⟨p,reverse,from_.map utf8,to_.map utf8⟩ (utf8 k) =
      spanCovers ⟨c,reverse,from_.map utf16,to_.map utf16⟩ (utf16 k) := by
  have first : ((from_.map utf8).all fun f => if reverse then utf8 k < f else f < utf8 k) =
      (from_.map utf16).all fun f => if reverse then compareKeys (utf16 k) f < 0 else 0 < compareKeys (utf16 k) f := by
    rw [Option.all_map,Option.all_map]
    congr
    funext f
    cases reverse <;> simp [utf8_lt,compareKeys_lt,compareKeys_gt]
  have last : ((to_.map utf8).all fun t => if reverse then t ≤ utf8 k else utf8 k ≤ t) =
      (to_.map utf16).all fun t => if reverse then 0 ≤ compareKeys (utf16 k) t else compareKeys (utf16 k) t ≤ 0 := by
    rw [Option.all_map,Option.all_map]
    congr
    funext t
    cases reverse <;> simp [← not_lt,utf8_lt,compareKeys_lt,compareKeys_gt]
  rw [Scan.Span.covers,spanCovers,picks_twin twins]
  exact congrArg₂ and (congrArg₂ and first last) rfl

-- A pattern of well-formed texts, its template's name below the surrogates, compiles alike on
-- the server and the client; walks of it over one store, each with its own budget, visit the
-- same keys in the same order, and a span of it covers the same keys.
theorem scans_agree (kp : KeyPattern (List Char)) (names : ∀ name, kp.name = some name → ∀ c ∈ name, c.val.toNat < 0xd800) :
    (∀ message, Scan.fromJs (kp.map utf8) = .error message ↔ compilePattern (kp.map utf16) = .error message) ∧
    ∀ p c, Scan.fromJs (kp.map utf8) = .ok p → compilePattern (kp.map utf16) = .ok c →
      (∀ kv reverse after, ∃ rows, rows.Sublist (if reverse then kv.scan.reverse else kv.scan) ∧
        Agree kv p c reverse after rows) ∧
      ∀ (reverse : Bool) (from_ to_ : Option Key) (k : Key), Scan.Span.covers ⟨p,reverse,from_.map utf8,to_.map utf8⟩ (utf8 k) =
        spanCovers ⟨c,reverse,from_.map utf16,to_.map utf16⟩ (utf16 k) := by
  rcases compile_twin kp names with ⟨message,server,client⟩ | ⟨p,c,server,client,twins⟩
  · rw [server,client]
    refine ⟨fun _ => ?_,fun p c made => by cases made⟩
    simp only [Except.error.injEq]
  · rw [server,client]
    refine ⟨fun _ => iff_of_false (fun no => by cases no) (fun no => by cases no),fun p' c' made made' => ?_⟩
    cases made
    cases made'
    exact ⟨walks_agree twins,covers_twin twins⟩

-- A walk that has ended ends alike with more fuel.
theorem walkFrom_more {σ : Type} {keys : List Units} {c : CompiledPattern} {reverse : Bool} {budget fuel : Nat}
    {visit : Units → σ → Bool × σ} {j : Int} {s out : σ} (ended : walkFrom keys c reverse budget visit fuel j s = some out)
    (more : Nat) : walkFrom keys c reverse budget visit (fuel+more) j s = some out := by
  induction fuel generalizing j s with
  | zero => cases ended
  | succ fuel ih =>
    rw [Nat.succ_add]
    unfold walkFrom at ended ⊢
    cases here : ArrayCursor.key keys j with
    | none =>
      rw [here] at ended
      exact ended
    | some key =>
      rw [here] at ended
      dsimp only at ended ⊢
      cases placed : placeKey c key reverse with
      | done =>
        rw [placed] at ended
        exact ended
      | step =>
        rw [placed] at ended
        exact ih ended
      | found =>
        rw [placed] at ended
        dsimp only at ended ⊢
        generalize visit key s = seen at ended ⊢
        obtain ⟨on,s'⟩ := seen
        cases on with
        | true => exact ih ended
        | false => exact ended
      | seek target strict =>
        rw [placed] at ended
        dsimp only at ended ⊢
        by_cases behind : past target strict key reverse = true
        · rw [if_pos behind] at ended ⊢
          exact ih ended
        · rw [if_neg behind] at ended ⊢
          generalize toward keys target strict reverse budget j = stepped at ended ⊢
          cases stepped with
          | ended => exact ended
          | reached j' => exact ih ended
          | short => exact ih ended

namespace Sample

-- The topics of one team, under their titles.
def topics : KeyPattern (List Char) := ⟨some (.family "chat".toList [.eq "a".toList,.any]),some "title".toList,[]⟩

def server : Scan.Pattern :=
  ⟨utf8 "chat:".toList,[.value {lo:=some (utf8 ['a']),hi:=some (utf8 ['a']),single:=true,sep:=Scan.comma},
    .value {sep:=Scan.bang},.literal (utf8 "title".toList) (utf8 "titlf".toList) true],true⟩

def team : Skeleton.ValueField :=
  ⟨some (utf16 ['a']),false,some (utf16 ['a']),false,exactFor [some (utf16 ['a']),some (utf16 ['a'])],true,some Skeleton.comma⟩

def client : CompiledPattern :=
  ⟨utf16 "chat:".toList,[.value team,.value {sep:=some Skeleton.bang},.literal (utf16 "title".toList) true]⟩

-- Two teams' topics and a body, of which one team has two titles.
def stored : OrderedMap Key Bytes :=
  ((((∅ : OrderedMap Key Bytes).set "chat:a,x!title".toList [0xc0]).set "chat:a,y!body".toList [1]).set "chat:a,y!title".toList [2]).set
    "chat:b,x!title".toList [3]

def collect (key : Units) (keys : List Units) : Bool × List Units := (true,keys++[key])

theorem walk_titles (more : Nat) : walkPattern (clientKeys stored) client true none 8 collect (9+more) [] =
    some [utf16 "chat:a,y!title".toList,utf16 "chat:a,x!title".toList] :=
  walkFrom_more (by decide +kernel) more

theorem collect_titles : ∀ rows ∈ stored.scan.reverse.sublists,
    visitEach collect (rows.map fun row => utf16 row.1) [] = [utf16 "chat:a,y!title".toList,utf16 "chat:a,x!title".toList] →
      rows = [("chat:a,y!title".toList,[2]),("chat:a,x!title".toList,[0xc0])] := by decide +kernel

end Sample

-- Backwards, both sides hand out the one team's titles.
theorem scans_agree_sample : Agree Sample.stored Sample.server Sample.client true none
    [("chat:a,y!title".toList,[2]),("chat:a,x!title".toList,[0xc0])] := by
  have low : "title".toList.all (fun c => c.val.toNat < 0xd800) = true := by decide +kernel
  have agree := scans_agree Sample.topics fun _ is c member => by
    cases is
    exact of_decide_eq_true (List.all_eq_true.mp low c member)
  obtain ⟨rows,within,both⟩ := (agree.2 Sample.server Sample.client (by decide +kernel) rfl).1 Sample.stored true none
  obtain ⟨n,walks⟩ := both.2 (List Units) 8 Sample.collect []
  have visits := (Sample.walk_titles n).symm.trans (walks (9+n) (Nat.le_add_left n 9))
  rw [← Sample.collect_titles rows (List.mem_sublists.mpr within) (Option.some.inj visits).symm]
  exact both

end Twins
end PhaseLock
