import PhaseLock.Buffers

namespace PhaseLock
namespace Buffer

theorem sliceOf_some {key s : Bytes} : sliceOf key = some s ↔ bang ∉ s ∧ s++[bang] <+: key := by
  unfold sliceOf
  constructor
  · intro owned
    obtain ⟨i,found,rfl⟩ := Option.map_eq_some_iff.mp owned
    obtain ⟨inside,here,before⟩ := List.findIdx?_eq_some_iff_getElem.mp found
    have is : key[i] = bang := by simpa using here
    refine ⟨fun member => ?_,?_⟩
    · obtain ⟨j,low,at_⟩ := List.mem_take_iff_getElem.mp member
      exact before j (by omega) (by simpa using at_)
    · have front : key.take i++[bang] = key.take (i+1) := by
        rw [List.take_add_one,List.getElem?_eq_getElem inside,is]
        rfl
      rw [front]
      exact List.take_prefix _ _
  · rintro ⟨plain,rest,rfl⟩
    have none : s.findIdx? (· = bang) = none := by
      rw [List.findIdx?_eq_none_iff]
      intro c member
      have other : c ≠ bang := fun same => plain (same ▸ member)
      simpa using other
    have found : (s++bang :: rest).findIdx? (· = bang) = some s.length := by
      rw [List.findIdx?_append,none,List.findIdx?_cons,if_pos (by simp)]
      simp
    rw [List.append_assoc,List.singleton_append,found,Option.map_some,List.take_left]

theorem mem_intercalate {α : Type} {sep c : α} {parts : List (List α)} (member : c ∈ [sep].intercalate parts) :
    c = sep ∨ ∃ part ∈ parts, c ∈ part := by
  induction parts with
  | nil => cases member
  | cons part parts ih =>
    cases parts with
    | nil =>
      rw [List.intercalate_singleton] at member
      exact .inr ⟨part,List.mem_cons_self,member⟩
    | cons next parts =>
      rw [List.intercalate_cons_cons,List.mem_append,List.mem_append,List.mem_singleton] at member
      rcases member with (here | same) | later
      · exact .inr ⟨part,List.mem_cons_self,here⟩
      · exact .inl same
      · rcases ih later with same | ⟨among,inside,held⟩
        · exact .inl same
        · exact .inr ⟨among,List.mem_cons_of_mem _ inside,held⟩

theorem segment_above {s : Bytes} (ok : Submits.segment s = true) : ∀ c ∈ s, bang < c := by
  intro c member
  have each := List.all_eq_true.mp (Bool.and_eq_true_iff.mp ok).2 c member
  unfold Submits.segmentChar at each
  have cases_ : 48 ≤ c ∧ c ≤ 57 ∨ 65 ≤ c ∧ c ≤ 90 ∨ 97 ≤ c ∧ c ≤ 122 ∨ c = 95 ∨ c = 45 := by simpa using each
  have low : ∀ n : UInt8, bang < n → n ≤ c → bang < c := fun n above le => lt_of_lt_of_le above le
  rcases cases_ with digit | upper | lower | rfl | rfl
  · exact low 48 (by decide) digit.1
  · exact low 65 (by decide) upper.1
  · exact low 97 (by decide) lower.1
  · decide
  · decide

-- '!' sorts below every character a slice name holds.
theorem sliceNameOk_above {name : Bytes} (ok : Submits.sliceNameOk name = true) : ∀ c ∈ name, bang < c := by
  unfold Submits.sliceNameOk at ok
  obtain ⟨front,params⟩ := Bool.and_eq_true_iff.mp ok
  have family := segment_above (Bool.and_eq_true_iff.mp front).2
  intro c member
  rw [← List.takeWhile_append_dropWhile (p:=(· ≠ (58 : UInt8))) (l:=name)] at member
  rcases List.mem_append.mp member with inFamily | inRest
  · exact family c inFamily
  · cases after : name.dropWhile (· ≠ 58) with
    | nil => rw [after] at inRest; cases inRest
    | cons colon rest =>
      have first : colon = 58 := by
        have head := List.head?_dropWhile_not (fun c : UInt8 => decide (c ≠ 58)) name
        rw [after] at head
        simpa using head
      rw [after] at params inRest
      dsimp only at params
      obtain ⟨fronts,lasts⟩ := Bool.and_eq_true_iff.mp params
      obtain ⟨leading,_⟩ := Bool.and_eq_true_iff.mp fronts
      rcases List.mem_cons.mp inRest with rfl | inside
      · rw [first]
        decide
      · rw [← @List.intercalate_splitOn _ rest _ _ 44] at inside
        rcases mem_intercalate inside with rfl | ⟨part,among,held⟩
        · decide
        · have some_ : rest.splitOn 44 ≠ [] := List.splitOn_ne_nil 44 rest
          rw [← List.dropLast_append_getLast some_] at among
          rcases List.mem_append.mp among with early | last
          · exact segment_above (List.all_eq_true.mp leading part early) c held
          · rw [List.mem_singleton] at last
            have is : (rest.splitOn 44).getLastD [] = part := by
              rw [last,List.getLastD_eq_getLast?,List.getLast?_eq_some_getLast some_]
              rfl
            rw [is] at lasts
            have each := List.all_eq_true.mp lasts c held
            simp only [Bool.or_eq_true,decide_eq_true_eq] at each
            rcases each with (seg | rfl) | rfl
            · exact segment_above (s:=[c]) (by simp [Submits.segment,seg]) c List.mem_cons_self
            · decide
            · decide

theorem SliceName.plain (slice : SliceName) : bang ∉ slice.val := fun member =>
  lt_irrefl _ (sliceNameOk_above slice.property bang member)

theorem WritableKey.owned (key : WritableKey) : ∃ slice : SliceName, sliceOf key.val = some slice.val := by
  obtain ⟨_,named⟩ := Bool.and_eq_true_iff.mp key.property
  cases owned : sliceOf key.val with
  | none => rw [owned] at named; cases named
  | some s =>
    rw [owned] at named
    exact ⟨⟨s,named⟩,rfl⟩

-- A key's place is its slice's place, and then its own.
theorem slices_le {a b : Bytes} {s t : SliceName} (first : sliceOf a = some s.val) (second : sliceOf b = some t.val) (less : a < b) :
    s.val ≤ t.val := by
  obtain ⟨_,x,rfl⟩ := sliceOf_some.mp first
  obtain ⟨_,y,rfl⟩ := sliceOf_some.mp second
  rw [List.append_assoc,List.append_assoc] at less
  exact Texts.heads_le (sliceNameOk_above s.property) less

theorem get_foldl_del (ks : List Bytes) (m : OrderedMap Bytes (Option Bytes)) (k : Bytes) :
    (ks.foldl OrderedMap.del m).get k = if k ∈ ks then none else m.get k := by
  induction ks generalizing m with
  | nil => simp
  | cons first ks ih =>
    rw [List.foldl_cons,ih,OrderedMap.get_del]
    by_cases same : first = k
    · simp [same]
    · by_cases later : k ∈ ks
      · rw [if_pos later,if_pos (List.mem_cons_of_mem _ later)]
      · have out : k ∉ first :: ks := fun member => (List.mem_cons.mp member).elim (fun is => same is.symm) later
        rw [if_neg later,if_neg out]
        simp [same]

theorem mem_under {wb : WriteBuffer} {slice : SliceName} {k : Bytes} :
    k ∈ wb.under slice.val ↔ (∃ v, wb.entries.get k = some v) ∧ sliceOf k = some slice.val := by
  unfold WriteBuffer.under
  rw [Texts.run_filter (OrderedMap.scan_sorted wb.entries),sliceOf_some]
  constructor
  · intro member
    obtain ⟨row,held,rfl⟩ := List.mem_map.mp member
    obtain ⟨inside,starts⟩ := List.mem_filter.mp held
    exact ⟨⟨row.2,(OrderedMap.mem_scan _ _ _).mp inside⟩,slice.plain,List.isPrefixOf_iff_prefix.mp starts⟩
  · rintro ⟨⟨v,held⟩,_,starts⟩
    exact List.mem_map.mpr ⟨(k,v),List.mem_filter.mpr ⟨(OrderedMap.mem_scan _ _ _).mpr held,List.isPrefixOf_iff_prefix.mpr starts⟩,rfl⟩

-- A later write that leaves a key's entry as it stands.
def Spares (key : Bytes) : Write → Prop
  | .put other _ => other.val ≠ key
  | .deleteSlice slice _ => sliceOf key ≠ some slice.val

theorem stands_concat {ws : List Write} {w : Write} {key : Bytes} {val : Option Bytes} :
    Stands (ws++[w]) key val ↔ (∃ own, w = .put own val ∧ own.val = key) ∨ Stands ws key val ∧ Spares key w := by
  constructor
  · rintro ⟨before,own,after,split,is,spared⟩
    rcases List.eq_nil_or_concat after with rfl | ⟨after,last,rfl⟩
    · obtain ⟨_,same⟩ := List.append_inj' split rfl
      exact .inl ⟨own,(List.cons.inj same).1,is⟩
    · rw [List.concat_eq_append] at split spared
      rw [← List.cons_append,← List.append_assoc] at split
      obtain ⟨front,same⟩ := List.append_inj' split rfl
      have last_ : w = last := (List.cons.inj same).1
      refine .inr ⟨⟨before,own,after,front,is,fun v member => spared v (List.mem_append_left _ member)⟩,?_⟩
      have held := spared last (by simp)
      rw [last_]
      cases last <;> exact held
  · rintro (⟨own,rfl,is⟩ | ⟨⟨before,own,after,rfl,is,spared⟩,spares⟩)
    · exact ⟨ws,own,[],rfl,is,fun v member => absurd member List.not_mem_nil⟩
    · refine ⟨before,own,after++[w],by simp,is,fun v member => ?_⟩
      rcases List.mem_append.mp member with earlier | last
      · exact spared v earlier
      · rw [List.mem_singleton.mp last]
        cases w <;> exact spares

theorem erases_concat (ws : List Write) (w : Write) (slice : Bytes) : erases (ws++[w]) slice = erases ws slice++erases [w] slice := by
  unfold erases
  rw [List.filterMap_append]

theorem deletion_other {ws : List Write} {w : Write} {slice : Bytes} (other : erases [w] slice = []) :
    deletion (ws++[w]) slice = deletion ws slice := by
  unfold deletion
  rw [erases_concat,other,List.append_nil]

theorem deletion_joins (ws : List Write) (slice : SliceName) (erase : Bool) :
    deletion (ws++[.deleteSlice slice erase]) slice.val = some ((deletion ws slice.val).getD false || erase) := by
  have own : erases [.deleteSlice slice erase] slice.val = [erase] := by simp [erases]
  unfold deletion
  rw [erases_concat,own,if_neg (by simp),List.any_append]
  by_cases none : erases ws slice.val = []
  · simp [none]
  · simp [none]

-- The buffer's entries are the puts that stand, and its deletions the slices' deletions.
theorem writes_hold (ws : List Write) : (∀ key val, (writes ws).entries.get key = some val ↔ Stands ws key val) ∧
    ∀ slice, (writes ws).dels.get slice = deletion ws slice := by
  induction ws using List.reverseRecOn with
  | nil =>
    refine ⟨fun key val => ⟨fun held => (by cases held),?_⟩,fun slice => rfl⟩
    rintro ⟨before,own,after,split,_⟩
    exact absurd split.symm (by simp)
  | append_singleton ws w ih =>
    obtain ⟨entries,dels⟩ := ih
    have step : writes (ws++[w]) = (writes ws).write w := by rw [writes,List.foldl_append]; rfl
    rw [step]
    cases w with
    | put own put_ =>
      constructor
      · intro key val
        rw [stands_concat]
        show ((writes ws).entries.set own.val put_).get key = some val ↔ _
        rw [OrderedMap.get_set]
        by_cases same : own.val = key
        · rw [if_pos same]
          refine ⟨fun is => .inl ⟨own,by rw [Option.some.inj is],same⟩,?_⟩
          rintro (⟨other,is,_⟩ | ⟨_,spares⟩)
          · cases is
            rfl
          · exact absurd same spares
        · rw [if_neg same,entries]
          refine ⟨fun stands => .inr ⟨stands,same⟩,?_⟩
          rintro (⟨other,is,here⟩ | ⟨stands,_⟩)
          · cases is
            exact absurd here same
          · exact stands
      · intro slice
        rw [deletion_other (by simp [erases])]
        exact dels slice
    | deleteSlice slice erase =>
      constructor
      · intro key val
        rw [stands_concat]
        show (((writes ws).under slice.val).foldl OrderedMap.del (writes ws).entries).get key = some val ↔ _
        rw [get_foldl_del]
        by_cases under : key ∈ (writes ws).under slice.val
        · rw [if_pos under]
          refine ⟨fun is => (by cases is),?_⟩
          rintro (⟨other,is,_⟩ | ⟨_,spares⟩)
          · cases is
          · exact absurd (mem_under.mp under).2 spares
        · rw [if_neg under,entries]
          refine ⟨fun stands => .inr ⟨stands,fun owned => under (mem_under.mpr ⟨⟨val,(entries key val).mpr stands⟩,owned⟩)⟩,?_⟩
          rintro (⟨other,is,_⟩ | ⟨stands,_⟩)
          · cases is
          · exact stands
      · intro name
        show ((writes ws).dels.set slice.val (((writes ws).dels.get slice.val).getD false || erase)).get name = _
        rw [OrderedMap.get_set]
        by_cases same : slice.val = name
        · rw [if_pos same,← same,deletion_joins,dels]
        · rw [if_neg same,dels,deletion_other (by simp [erases,same])]

abbrev Row := Bytes × Option Bytes

def Owned (rows : List Row) : Prop := ∀ row ∈ rows, ∃ slice : SliceName, sliceOf row.1 = some slice.val

def ownRows (rows : List Row) (name : Bytes) : List Row := rows.filter fun row => sliceOf row.1 = some name

-- The groups of a stretch of the entries: each slice's once, whole, in name order.
structure Groups (rows : List Row) (out : List Touched) : Prop where
  ascending : (out.map Touched.name).Pairwise (· < ·)
  whole : ∀ t ∈ out, t = ⟨t.name,ownRows rows t.name,none⟩
  names : ∀ s, s ∈ out.map Touched.name ↔ ∃ row ∈ rows, sliceOf row.1 = some s

theorem ownRows_other {rows : List Row} {row : Row} {slice name : Bytes} (owned : sliceOf row.1 = some slice) (other : name ≠ slice) :
    ownRows (rows++[row]) name = ownRows rows name := by
  have apart : ¬sliceOf row.1 = some name := by
    rw [owned]
    exact fun same => other (Option.some.inj same).symm
  rw [ownRows,List.filter_append,List.filter_cons_of_neg (by simpa using apart),List.filter_nil,List.append_nil]
  rfl

theorem ownRows_own {rows : List Row} {row : Row} {slice : Bytes} (owned : sliceOf row.1 = some slice) :
    ownRows (rows++[row]) slice = ownRows rows slice++[row] := by
  rw [ownRows,List.filter_append,List.filter_cons_of_pos (by simpa using owned),List.filter_nil]
  rfl

-- A row of a slice past every one before it begins a group.
theorem groups_new {rows : List Row} {row : Row} {out : List Touched} {slice : Bytes} (groups : Groups rows out)
    (owned : sliceOf row.1 = some slice) (past : ∀ name ∈ out.map Touched.name, name < slice) :
    Groups (rows++[row]) (out++[⟨slice,[row],none⟩]) := by
  have fresh : slice ∉ out.map Touched.name := fun member => lt_irrefl _ (past slice member)
  have none_ : ownRows rows slice = [] := by
    rw [ownRows,List.filter_eq_nil_iff]
    intro r member own
    exact fresh ((groups.names slice).mpr ⟨r,member,by simpa using own⟩)
  refine ⟨?_,fun t member => ?_,fun s => ?_⟩
  · rw [List.map_append,List.pairwise_append]
    exact ⟨groups.ascending,by simp,fun a inside b single => by rw [List.mem_singleton.mp single]; exact past a inside⟩
  · rcases List.mem_append.mp member with old | single
    · rw [ownRows_other owned (ne_of_lt (past _ (List.mem_map_of_mem old)))]
      exact groups.whole t old
    · rw [List.mem_singleton.mp single,ownRows_own owned,none_,List.nil_append]
  · rw [List.map_append,List.mem_append,groups.names]
    constructor
    · rintro (⟨r,member,own⟩ | single)
      · exact ⟨r,List.mem_append_left _ member,own⟩
      · rw [List.mem_singleton.mp single]
        exact ⟨row,by simp,owned⟩
    · rintro ⟨r,member,own⟩
      rcases List.mem_append.mp member with old | single
      · exact .inl ⟨r,old,own⟩
      · rw [List.mem_singleton.mp single,owned] at own
        exact .inr (by rw [← Option.some.inj own]; simp)

-- A row of the last slice joins its group.
theorem groups_join {rows : List Row} {row : Row} {prior : List Touched} {t : Touched} (groups : Groups rows (prior++[t]))
    (owned : sliceOf row.1 = some t.name) : Groups (rows++[row]) (prior++[{t with entries:=t.entries++[row]}]) := by
  have names : (prior++[{t with entries:=t.entries++[row]}]).map Touched.name = (prior++[t]).map Touched.name := by simp
  refine ⟨names ▸ groups.ascending,fun u member => ?_,fun s => ?_⟩
  · rcases List.mem_append.mp member with old | single
    · have less : u.name < t.name := by
        have order := groups.ascending
        rw [List.map_append,List.pairwise_append] at order
        exact order.2.2 _ (List.mem_map_of_mem old) _ (by simp)
      rw [ownRows_other owned (ne_of_lt less)]
      exact groups.whole u (List.mem_append_left _ old)
    · have equal := groups.whole t (by simp)
      rw [Touched.mk.injEq] at equal
      rw [List.mem_singleton.mp single,Touched.mk.injEq,ownRows_own owned,← equal.2.1]
      exact ⟨rfl,rfl,equal.2.2⟩
  · rw [names,groups.names]
    constructor
    · rintro ⟨r,member,own⟩
      exact ⟨r,List.mem_append_left _ member,own⟩
    · rintro ⟨r,member,own⟩
      rcases List.mem_append.mp member with old | single
      · exact ⟨r,old,own⟩
      · rw [List.mem_singleton.mp single,owned] at own
        exact (groups.names s).mp (by rw [← Option.some.inj own]; simp)

theorem groups_rows {rows : List Row} (sorted : rows.Pairwise fun a b => a.1 < b.1) (owned : Owned rows) :
    Groups rows (rows.foldl WriteBuffer.touchEntry []) := by
  induction rows using List.reverseRecOn with
  | nil => exact ⟨by simp,fun t member => absurd member List.not_mem_nil,by simp⟩
  | append_singleton rows row ih =>
    obtain ⟨inner,_,outer⟩ := List.pairwise_append.mp sorted
    obtain ⟨slice,own⟩ := owned row (by simp)
    have groups := ih inner fun r member => owned r (List.mem_append_left _ member)
    rw [List.foldl_append,List.foldl_cons,List.foldl_nil]
    generalize rows.foldl WriteBuffer.touchEntry [] = out at groups
    -- the slices come in the order of their keys
    have low : ∀ name ∈ out.map Touched.name, name ≤ slice.val := by
      intro name member
      obtain ⟨r,held,under⟩ := (groups.names name).mp member
      obtain ⟨other,is⟩ := owned r (List.mem_append_left _ held)
      rw [is] at under
      rw [← Option.some.inj under]
      exact slices_le is own (outer r held row (by simp))
    unfold WriteBuffer.touchEntry
    rw [own,Option.getD_some]
    dsimp only
    rcases List.eq_nil_or_concat out with rfl | ⟨prior,t,rfl⟩
    · exact groups_new groups own fun name member => absurd member List.not_mem_nil
    · rw [List.concat_eq_append] at groups low ⊢
      rw [List.getLast?_concat,List.dropLast_concat]
      dsimp only
      have order := groups.ascending
      rw [List.map_append,List.pairwise_append] at order
      by_cases same : t.name = slice.val
      · rw [if_pos same]
        exact groups_join groups (same ▸ own)
      · rw [if_neg same]
        have below : t.name < slice.val := lt_of_le_of_ne (low t.name (by simp)) same
        refine groups_new groups own fun name member => ?_
        rw [List.map_append,List.mem_append] at member
        rcases member with early | last
        · exact lt_trans (order.2.2 name early t.name (by simp)) below
        · rw [List.map_singleton,List.mem_singleton] at last
          exact last ▸ below

-- The groups with a stretch of the deletions put on them.
structure Merged (rows : List Row) (dels : List (Bytes × Bool)) (out : List Touched) : Prop where
  ascending : (out.map Touched.name).Pairwise (· < ·)
  whole : ∀ t ∈ out, t = ⟨t.name,ownRows rows t.name,OrderedMap.lookup t.name dels⟩
  names : ∀ s, s ∈ out.map Touched.name ↔ (∃ row ∈ rows, sliceOf row.1 = some s) ∨ s ∈ dels.map Prod.fst

theorem lookup_concat {dels : List (Bytes × Bool)} {del : Bytes × Bool} (fresh : del.1 ∉ dels.map Prod.fst) (name : Bytes) :
    OrderedMap.lookup name (dels++[del]) = if del.1 = name then some del.2 else OrderedMap.lookup name dels := by
  induction dels with
  | nil => simp [OrderedMap.lookup]
  | cons head tail ih =>
    rw [List.map_cons,List.mem_cons,not_or] at fresh
    rw [List.cons_append,OrderedMap.lookup,OrderedMap.lookup,ih fresh.2]
    by_cases here : head.1 = name
    · have other : del.1 ≠ name := fun same => fresh.1 (same.trans here.symm)
      rw [if_pos here,if_neg other,if_pos here]
    · rw [if_neg here,if_neg here]

theorem insertIdx_parts {α : Type} {l : List α} {i : Nat} (inside : i ≤ l.length) (x : α) : l.insertIdx i x = l.take i++x :: l.drop i := by
  induction i generalizing l with
  | zero => rfl
  | succ i ih =>
    cases l with
    | nil => exact absurd inside (by simp)
    | cons head l => rw [List.insertIdx_succ_cons,ih (Nat.le_of_succ_le_succ inside),List.take_succ_cons,List.drop_succ_cons,List.cons_append]

theorem compareNames_lt {a b : Bytes} : compareNames a b = .lt ↔ a < b := by
  unfold compareNames
  split_ifs <;> simp [*]

theorem compareNames_eq {a b : Bytes} : compareNames a b = .eq ↔ a = b := by
  unfold compareNames
  split_ifs with less same
  · simp [ne_of_lt less]
  · simp [same]
  · simp [same]

theorem compareNames_gt {a b : Bytes} : compareNames a b = .gt ↔ b < a := by
  unfold compareNames
  split_ifs with less same
  · simp [le_of_lt less]
  · simp [same]
  · simp [lt_of_le_of_ne (not_lt.mp less) (Ne.symm same)]

theorem ordered_names {out : List Touched} (ascending : (out.map Touched.name).Pairwise (· < ·)) (s : Bytes) :
    Searches.Ordered (fun t : Touched => compareNames t.name s) out := by
  refine (List.pairwise_map.mp ascending).imp fun less past => ?_
  have le := not_lt.mp fun low => past (compareNames_lt.mpr low)
  exact compareNames_gt.mpr (lt_of_le_of_lt le less)

theorem merged_step {rows : List Row} {dels : List (Bytes × Bool)} {del : Bytes × Bool} {out : List Touched}
    (merged : Merged rows dels out) (fresh : del.1 ∉ dels.map Prod.fst) : Merged rows (dels++[del]) (WriteBuffer.touchDel out del) := by
  have others : ∀ t ∈ out, t.name ≠ del.1 → t = ⟨t.name,ownRows rows t.name,OrderedMap.lookup t.name (dels++[del])⟩ := by
    intro t member other
    rw [lookup_concat fresh,if_neg (Ne.symm other)]
    exact merged.whole t member
  have more : ∀ s, (s ∈ out.map Touched.name ∨ s = del.1) ↔
      (∃ row ∈ rows, sliceOf row.1 = some s) ∨ s ∈ (dels++[del]).map Prod.fst := by
    intro s
    rw [merged.names,List.map_append,List.mem_append,List.map_singleton,List.mem_singleton,or_assoc]
  have spec := Searches.binarySearchBy_spec (ordered_names merged.ascending del.1)
  unfold WriteBuffer.touchDel
  cases found : Searches.binarySearchBy (fun t : Touched => compareNames t.name del.1) out with
  | ok i =>
    rw [found] at spec
    obtain ⟨t,at_,is⟩ := spec
    obtain ⟨inside,rfl⟩ := List.getElem?_eq_some_iff.mp at_
    have named := compareNames_eq.mp is
    dsimp only
    rw [List.modify_eq_take_cons_drop inside]
    have split : out = out.take i++out[i] :: out.drop (i+1) := by
      rw [← List.drop_eq_getElem_cons inside,List.take_append_drop]
    have names : (out.take i++{out[i] with del:=some del.2} :: out.drop (i+1)).map Touched.name = out.map Touched.name := by
      conv_rhs => rw [split]
      rw [List.map_append,List.map_append,List.map_cons,List.map_cons]
    have apart : ∀ u ∈ out.take i++out.drop (i+1), u.name ≠ del.1 := by
      have order := merged.ascending
      rw [split,List.map_append,List.map_cons,List.pairwise_append,List.pairwise_cons] at order
      intro u member
      rcases List.mem_append.mp member with early | late
      · exact named ▸ ne_of_lt (order.2.2 _ (List.mem_map_of_mem early) _ List.mem_cons_self)
      · exact named ▸ ne_of_gt (order.2.1.1 _ (List.mem_map_of_mem late))
    refine ⟨names ▸ merged.ascending,fun u member => ?_,fun s => ?_⟩
    · rcases List.mem_append.mp member with early | rest
      · exact others u (List.mem_of_mem_take early) (apart u (List.mem_append_left _ early))
      · rcases List.mem_cons.mp rest with rfl | late
        · have equal := merged.whole out[i] (List.getElem_mem inside)
          rw [Touched.mk.injEq] at equal
          rw [Touched.mk.injEq,lookup_concat fresh,if_pos named.symm]
          exact ⟨rfl,equal.2.1,rfl⟩
        · exact others u (List.mem_of_mem_drop late) (apart u (List.mem_append_right _ late))
    · rw [names,← more s]
      refine ⟨.inl,?_⟩
      rintro (held | rfl)
      · exact held
      · exact List.mem_map.mpr ⟨out[i],List.getElem_mem inside,named⟩
  | error i =>
    rw [found] at spec
    obtain ⟨inside,early,late⟩ := spec
    dsimp only
    rw [insertIdx_parts inside]
    have below : ∀ t ∈ out.take i, t.name < del.1 := fun t member => compareNames_lt.mp (early t member)
    have above : ∀ t ∈ out.drop i, del.1 < t.name := fun t member => compareNames_gt.mp (late t member)
    have order := merged.ascending
    rw [← List.take_append_drop i out,List.map_append,List.pairwise_append] at order
    have new : del.1 ∉ out.map Touched.name := by
      intro member
      obtain ⟨t,held,is⟩ := List.mem_map.mp member
      rw [← List.take_append_drop i out] at held
      rcases List.mem_append.mp held with front | back
      · exact absurd is (ne_of_lt (below t front))
      · exact absurd is (ne_of_gt (above t back))
    refine ⟨?_,fun u member => ?_,fun s => ?_⟩
    · rw [List.map_append,List.map_cons,List.pairwise_append,List.pairwise_cons]
      refine ⟨order.1,⟨fun name member => ?_,order.2.1⟩,fun name member other among => ?_⟩
      · obtain ⟨t,held,rfl⟩ := List.mem_map.mp member
        exact above t held
      · rcases List.mem_cons.mp among with rfl | back
        · obtain ⟨t,held,rfl⟩ := List.mem_map.mp member
          exact below t held
        · exact order.2.2 name member other back
    · rcases List.mem_append.mp member with front | rest
      · exact others u (List.mem_of_mem_take front) (ne_of_lt (below u front))
      · rcases List.mem_cons.mp rest with rfl | back
        · have none_ : ownRows rows del.1 = [] := by
            rw [ownRows,List.filter_eq_nil_iff]
            intro r held own
            exact new ((merged.names del.1).mpr (.inl ⟨r,held,by simpa using own⟩))
          rw [Touched.mk.injEq,lookup_concat fresh,if_pos rfl]
          exact ⟨rfl,none_.symm,rfl⟩
        · exact others u (List.mem_of_mem_drop back) (ne_of_gt (above u back))
    · rw [← more s]
      conv_rhs => rw [← List.take_append_drop i out]
      rw [List.map_append,List.map_cons,List.map_append,List.mem_append,List.mem_cons,List.mem_append]
      tauto

theorem merged_dels {rows : List Row} {dels : List (Bytes × Bool)} {out : List Touched} (groups : Groups rows out)
    (distinct : (dels.map Prod.fst).Nodup) : Merged rows dels (dels.foldl WriteBuffer.touchDel out) := by
  induction dels using List.reverseRecOn with
  | nil => exact ⟨groups.ascending,groups.whole,fun s => (groups.names s).trans (by simp)⟩
  | append_singleton dels del ih =>
    rw [List.map_append,List.nodup_append] at distinct
    rw [List.foldl_append,List.foldl_cons,List.foldl_nil]
    exact merged_step (ih distinct.1) fun member => distinct.2.2 _ member del.1 (by simp) rfl

theorem writes_owned (ws : List Write) : Owned (writes ws).entries.scan := by
  intro row member
  obtain ⟨_,own,_,_,is,_⟩ := ((writes_hold ws).1 row.1 row.2).mp ((OrderedMap.mem_scan _ _ _).mp member)
  exact is ▸ own.owned

-- After any run of writes the gate admits, the slices touched are those with an entry or a
-- deletion, each once, in name order, with its entries in key order, each a put that no later
-- put of its key and no later deletion of its slice followed, and with its deletions joined.
theorem touched_groups (ws : List Write) :
    ((writes ws).touched.map Touched.name).Pairwise (· < ·) ∧
    (∀ slice, slice ∈ (writes ws).touched.map Touched.name ↔
      (∃ key val, sliceOf key = some slice ∧ Stands ws key val) ∨ deletion ws slice ≠ none) ∧
    ∀ t ∈ (writes ws).touched, t.entries.Pairwise (fun a b => a.1 < b.1) ∧
      (∀ key val, (key,val) ∈ t.entries ↔ sliceOf key = some t.name ∧ Stands ws key val) ∧ t.del = deletion ws t.name := by
  obtain ⟨entries,dels⟩ := writes_hold ws
  have perm := List.perm_insertionSort (fun a b : Bytes × Bool => a.1 ≤ b.1) (writes ws).dels.entries
  have distinct : ((writes ws).dels.scan.map Prod.fst).Nodup := (perm.map Prod.fst).nodup_iff.mpr (writes ws).dels.distinct
  have sorted := OrderedMap.scan_sorted (writes ws).entries
  have merged := merged_dels (groups_rows sorted (writes_owned ws)) distinct
  have found : ∀ name, OrderedMap.lookup name (writes ws).dels.scan = deletion ws name := by
    intro name
    rw [← dels]
    refine Option.ext fun erase => ?_
    rw [OrderedMap.lookup_some _ distinct,OrderedMap.mem_scan]
  have held : ∀ key val, (key,val) ∈ (writes ws).entries.scan ↔ Stands ws key val := fun key val => by
    rw [OrderedMap.mem_scan,entries]
  refine ⟨merged.ascending,fun slice => (merged.names slice).trans (or_congr ?_ ?_),fun t member => ?_⟩
  · constructor
    · rintro ⟨row,inside,own⟩
      exact ⟨row.1,row.2,own,(held _ _).mp inside⟩
    · rintro ⟨key,val,own,stands⟩
      exact ⟨(key,val),(held _ _).mpr stands,own⟩
  · rw [← found slice,Ne,← not_iff_not,not_not]
    constructor
    · exact OrderedMap.lookup_absent _ _
    · intro none inside
      obtain ⟨row,among,rfl⟩ := List.mem_map.mp inside
      rw [(OrderedMap.lookup_some _ distinct row.1 row.2).mpr among] at none
      cases none
  · have whole := merged.whole t member
    rw [Touched.mk.injEq] at whole
    refine ⟨?_,fun key val => ?_,whole.2.2.trans (found _)⟩
    · rw [whole.2.1]
      exact sorted.filter _
    · rw [whole.2.1,ownRows,List.mem_filter,held]
      simp [and_comm]

end Buffer
end PhaseLock
