import PhaseLock.QueryReads

namespace PhaseLock
variable {V τ : Type}

namespace Batches

-- A walk that stands at no batch that ends past its last row.
structure Plain (w : Batches V) : Prop where
  positive : 0 < w.limit
  ends : ∀ b, w.batch = some b → b.skips = false

theorem fetch_plain {view : QueryView V} (bare : view.Bare) (deps : ReadDeps) {w : Batches V} (plain : w.Plain) :
    (fetch view deps w).2.Plain ∧ (fetch view deps w).1.skipped = deps.skipped := by
  refine ⟨⟨plain.positive,fun b is => ?_⟩,(record_keeps _ _ _ _ _).2.2.1⟩
  cases is
  cases next : (OverlayTxn.scan view.base view.overlay w.pattern w.reverse w.after w.limit).next with
  | none => simp
  | some n => simp [OverlayTxn.scan_bare bare w.pattern w.reverse w.after plain.positive next]

theorem take_plain {view : QueryView V} (bare : view.Bare) (fuel : Nat) {deps : ReadDeps} {w : Batches V} (plain : w.Plain)
    (clear : deps.skipped = false) : (take view fuel deps w).2.1.skipped = false ∧ (take view fuel deps w).2.2.Plain := by
  induction fuel generalizing deps w with
  | zero => exact ⟨clear,plain⟩
  | succ fuel ih =>
    unfold take
    split
    · obtain ⟨fetched,kept⟩ := fetch_plain bare deps plain
      exact ih fetched (kept.trans clear)
    · rename_i b batch
      have ends := plain.ends b batch
      split
      · refine ⟨clear,plain.positive,fun b' is => ?_⟩
        cases is
        exact ends
      · exact ⟨clear,plain.positive,plain.ends⟩
      · rename_i n _ _
        have further : Plain {w with after:=some n,limit:=min (w.limit*2) 256} := ⟨by have := plain.positive; dsimp only; omega,plain.ends⟩
        obtain ⟨fetched,kept⟩ := fetch_plain bare {deps with skipped:=deps.skipped || b.skips} further
        exact ih fetched (kept.trans (by simp [clear,ends]))

-- What was read of a tangled base stays so marked.
theorem take_tangled (view : QueryView V) (fuel : Nat) {deps : ReadDeps} {w : Batches V} (tangled : deps.tangled = true) :
    (take view fuel deps w).2.1.tangled = true := by
  induction fuel generalizing deps w with
  | zero => exact tangled
  | succ fuel ih =>
    have fetched : ∀ (deps : ReadDeps) (w : Batches V), deps.tangled = true → (fetch view deps w).1.tangled = true := by
      intro deps w tangled
      show (deps.tangled || _) = true
      rw [tangled,Bool.true_or]
    unfold take
    split
    · exact ih (fetched deps w tangled)
    · split
      · exact tangled
      · exact tangled
      · exact ih (fetched _ _ tangled)

theorem take_begins {view : QueryView V} {fuel : Nat} {deps : ReadDeps} {w : Batches V} (unfetched : w.batch = none)
    (tangles : ¬view.base.Untangled w.pattern w.reverse) : (take view (fuel+1) deps w).2.1.tangled = true := by
  unfold take
  rw [unfetched]
  refine take_tangled view fuel ?_
  show (_ || !decide (view.base.Untangled w.pattern w.reverse)) = true
  simp [tangles]

end Batches

namespace QueryRunning
variable {view : QueryView V} {s : QueryRunning V}

theorem sound_start (view : QueryView V) : Sound view {} where
  tops := rfl
  onward := fun _ member => by cases member
  stands := fun _ member => by cases member
  spans := fun _ member => by cases member
  apart := fun _ _ _ _ _ _ found => by cases found
  reads := fun _ _ member => by cases member

theorem Sound.gets (sound : Sound view s) (key : Key) (held : Bool) :
    Sound view {s with deps:={s.deps with keys:=s.deps.keys++[key],held}} ∧ s.deps.Grows {s.deps with keys:=s.deps.keys++[key],held} := by
  have grows : s.deps.Grows {s.deps with keys:=s.deps.keys++[key],held} := by
    refine ⟨fun other read => ?_,id⟩
    rw [ReadDeps.reads_iff] at read ⊢
    exact read.imp (List.mem_append_left _) id
  refine ⟨⟨sound.tops,sound.onward,sound.stands,sound.spans,sound.apart,fun plain w member other picked => ?_⟩,grows⟩
  obtain ⟨upward,whole⟩ := sound.reads plain w member other picked
  exact ⟨fun b front row at_ up => grows.1 other (upward b front row at_ up),fun ended => grows.1 other (whole ended)⟩

theorem Sound.opens (sound : Sound view s) (pattern : ScanPattern) (reverse : Bool) :
    Sound view {s with walks:=s.walks++[({pattern,reverse} : Batches V)]} := by
  have unfetched : ∀ b, ¬({pattern,reverse} : Batches V).batch = some b := fun b is => by cases is
  have each : ∀ (j : Nat) x, (s.walks++[({pattern,reverse} : Batches V)])[j]? = some x → s.walks[j]? = some x ∨ x = ({pattern,reverse} : Batches V) := by
    intro j x found
    rw [List.getElem?_append] at found
    split at found
    · exact .inl found
    · exact .inr (List.mem_singleton.mp (List.mem_iff_getElem?.mpr ⟨_,found⟩))
  refine ⟨sound.tops,sound.onward,fun w member => ?_,fun w member b front row at_ going => ?_,fun i j w x b c first second other gb gc => ?_,
    fun plain w member key picked => ?_⟩
  · rcases List.mem_append.mp member with old | new
    · exact sound.stands w old
    · rw [List.mem_singleton.mp new]
      exact .inl ⟨rfl,rfl,rfl,rfl⟩
  · rcases List.mem_append.mp member with old | new
    · exact sound.spans w old b front row at_ going
    · rw [List.mem_singleton.mp new] at going
      exact absurd going.1 (unfetched b)
  · rcases each i w first with old | rfl
    · rcases each j x second with old' | rfl
      · exact sound.apart i j w x b c old old' other gb gc
      · exact absurd gc.1 (unfetched c)
    · exact absurd gb.1 (unfetched b)
  · rcases List.mem_append.mp member with old | new
    · exact sound.reads plain w old key picked
    · rw [List.mem_singleton.mp new]
      exact ⟨fun b front row at_ => absurd at_.batch (unfetched b),fun ended => by cases ended⟩

end QueryRunning

theorem set_same {α : Type} {l : List α} {i : Nat} {a : α} (found : l[i]? = some a) : l.set i a = l := by
  obtain ⟨inside,rfl⟩ := List.getElem?_eq_some_iff.mp found
  exact List.set_getElem_self inside

namespace Reader
open Batches QueryRunning

-- A walk in batches stands where the plain walk stands.
def Follows (view : QueryView V) (w : Batches V) (o : Opened Key V ScanPattern) : Prop :=
  o.pattern = w.pattern ∧ o.reverse = w.reverse ∧ o.left = left view w

theorem run_keeps_tangled (view : QueryView V) (program : Reader Key V ScanPattern τ) {s : QueryRunning V} (tangled : s.deps.tangled = true) :
    (program.run view s).2.tangled = true := by
  induction program generalizing s with
  | give | fail => exact tangled
  | get key more ih => exact ih _ tangled
  | walk pattern reverse more ih => exact ih tangled
  | take i more ih =>
    simp only [run]
    split
    · exact ih _ tangled
    · split
      · exact ih _ tangled
      · split
        · exact ih _ tangled
        · exact ih _ (take_tangled view (fuel view) tangled)

-- Where nothing is held, a run over a base untangled under all it walks gives what the plain
-- reading gives, and its record covers all the reading read, unless a batch ended past its last row.
theorem run_reads {view : QueryView V} (free : view.held = false) (program : Reader Key V ScanPattern τ) {s : QueryRunning V}
    {opened : List (Opened Key V ScanPattern)} (sound : Sound view s) (follows : List.Forall₂ (Follows view) s.walks opened)
    (calm : (program.run view s).2.tangled = false) :
    (program.run view s).1 = (read ScanPattern.picks view.sight program opened).1 ∧ s.deps.Grows (program.run view s).2 ∧
      (program.run view s).2.held = s.deps.held ∧ ((program.run view s).2.skipped = false →
        ∀ reading ∈ (read ScanPattern.picks view.sight program opened).2, ∀ key, reading.Covers ScanPattern.picks key →
          (program.run view s).2.reads key = true) := by
  induction program generalizing s opened with
  | give | fail => exact ⟨rfl,.refl _,rfl,fun _ _ member => by cases member⟩
  | get key more ih =>
    have answer : got view key = some (view.sight.get key) := by
      unfold got QueryView.sight
      dsimp only
      cases view.status.get key with
      | some value => rfl
      | none => rw [free]; rfl
    simp only [run,read,answer] at calm ⊢
    obtain ⟨sound',grows⟩ := sound.gets key (s.deps.held || (some (view.sight.get key)).isNone)
    obtain ⟨same,grows',held,covers⟩ := ih (some (view.sight.get key)) sound' follows calm
    refine ⟨same,grows.trans grows',held.trans (Bool.or_false _),fun plain reading member other covered => ?_⟩
    rcases List.mem_cons.mp member with rfl | later
    · obtain rfl : other = key := covered
      refine grows'.1 other ((ReadDeps.reads_iff _ _).mpr (.inl ?_))
      simp
    · exact covers plain reading later other covered
  | walk pattern reverse more ih =>
    simp only [run,read] at calm ⊢
    refine ih (sound.opens pattern reverse) (List.rel_append follows (.cons ⟨rfl,rfl,rfl⟩ .nil)) calm
  | take i more ih =>
    simp only [run,read] at calm ⊢
    rcases forall₂_at follows i with ⟨found,found'⟩ | ⟨w,o,found,found',along,way,rows⟩
    · rw [found] at calm
      rw [found,found']
      exact ih (some none) sound follows calm
    · rw [found] at calm
      rw [found,found']
      dsimp only at calm ⊢
      cases ended : w.ended with
      | true =>
        have over_ : o.left = [] := by rw [rows,left,ended]; rfl
        rw [ended,if_pos rfl] at calm
        rw [if_pos rfl,over_]
        obtain ⟨same,grows,held,covers⟩ := ih (some none) sound follows calm
        refine ⟨same,grows,held,fun plain reading member key covered => ?_⟩
        rcases List.mem_cons.mp member with rfl | later
        · obtain ⟨picked,_⟩ := covered
          rw [along] at picked
          exact grows.1 key ((sound.reads (grows.plain plain) w (member_ found) key picked).2 ended)
        · exact covers plain reading later key covered
      | false =>
        rw [ended,if_neg (by decide),if_neg (by rw [free]; decide)] at calm
        rw [if_neg (by decide),if_neg (by rw [free]; decide)]
        have untangled : view.base.Untangled w.pattern w.reverse := by
          rcases sound.stands w (member_ found) with ⟨unfetched,_⟩ | ⟨b,front,row,at_⟩ | over_
          · by_contra tangles
            rw [run_keeps_tangled view _ (take_begins unfetched tangles)] at calm
            cases calm
          · exact at_.untangled
          · rw [ended] at over_
            cases over_
        obtain ⟨row,deps,w',took,sound',grown,along',way',cases_⟩ := sound.takes found ended untangled
        have held' := (take_keeps view (fuel view) s.deps w).1
        rw [took] at held' calm ⊢
        have inside : w' ∈ s.walks.set i w' := List.mem_iff_getElem?.mpr ⟨i,by rw [List.getElem?_set_self (List.getElem?_eq_some_iff.mp found).1]⟩
        rcases cases_ with ⟨rfl,empty,ended'⟩ | ⟨e,b,front,rfl,parts,at_⟩
        · have over_ : o.left = [] := rows.trans empty
          have moved : List.Forall₂ (Follows view) (s.walks.set i w') (opened.set i o) := by
            refine forall₂_set follows i ⟨along.trans along'.symm,way.trans way'.symm,?_⟩
            rw [over_,left,ended']
            rfl
          rw [set_same found'] at moved
          rw [over_]
          obtain ⟨same,grows,held,covers⟩ := ih (some none) sound' moved calm
          refine ⟨same,grown.trans grows,held.trans held',fun plain reading member key covered => ?_⟩
          rcases List.mem_cons.mp member with rfl | later
          · obtain ⟨picked,_⟩ := covered
            rw [along,← along'] at picked
            exact grows.1 key ((sound'.reads (grows.plain plain) w' inside key picked).2 ended')
          · exact covers plain reading later key covered
        · have next : o.left = e :: left view w' := rows.trans parts
          have moved : List.Forall₂ (Follows view) (s.walks.set i w') (opened.set i {o with left:=left view w'}) :=
            forall₂_set follows i ⟨along.trans along'.symm,way.trans way'.symm,rfl⟩
          rw [next]
          obtain ⟨same,grows,held,covers⟩ := ih (some (some e)) sound' moved calm
          refine ⟨same,grown.trans grows,held.trans held',fun plain reading member key covered => ?_⟩
          rcases List.mem_cons.mp member with rfl | later
          · obtain ⟨picked,up⟩ := covered
            rw [along,← along'] at picked
            rw [way,← way'] at up
            exact grows.1 key ((sound'.reads (grows.plain plain) w' inside key picked).1 b front e at_ up)
          · exact covers plain reading later key covered

end Reader

-- Two views are alike at a key: the status and the overlay over the base hold the same there.
def QueryView.Alike (view view' : QueryView V) (key : Key) : Prop :=
  view.status.get key = view'.status.get key ∧ view.overlay.view view.base key = view'.overlay.view view'.base key

theorem QueryView.Alike.sight {view view' : QueryView V} {key : Key} (alike : view.Alike view' key) : view.sight.Alike view'.sight key := by
  refine ⟨?_,fun value => ?_⟩
  · unfold QueryView.sight
    dsimp only
    rw [alike.1,alike.2]
  · show (key,value) ∈ view.rows ↔ (key,value) ∈ view'.rows
    rw [mem_rows,mem_rows,alike.2]

theorem QueryView.Alike.refl (view : QueryView V) (key : Key) : view.Alike view key := ⟨rfl,rfl⟩

theorem QueryView.Alike.trans {a b c : QueryView V} {key : Key} (first : a.Alike b key) (second : b.Alike c key) : a.Alike c key :=
  ⟨first.1.trans second.1,first.2.trans second.2⟩

namespace Reader

theorem run_keeps_keys (view : QueryView V) (program : Reader Key V ScanPattern τ) {s : QueryRunning V} {key : Key} (got : key ∈ s.deps.keys) :
    key ∈ (program.run view s).2.keys := by
  induction program generalizing s with
  | give | fail => exact got
  | get other more ih => exact ih _ (List.mem_append_left _ got)
  | walk pattern reverse more ih => exact ih got
  | take i more ih =>
    simp only [run]
    split
    · exact ih _ got
    · split
      · exact ih _ got
      · split
        · exact ih _ got
        · exact ih _ (by rw [(Batches.take_keeps _ _ _ _).2]; exact got)

-- Over predictions that delete nothing no walk goes on from past a batch's last row.
theorem run_plain {view : QueryView V} (bare : view.Bare) (program : Reader Key V ScanPattern τ) {s : QueryRunning V}
    (clear : s.deps.skipped = false) (plain : ∀ w ∈ s.walks, w.Plain) : (program.run view s).2.skipped = false := by
  induction program generalizing s with
  | give | fail => exact clear
  | get key more ih => exact ih _ clear plain
  | walk pattern reverse more ih =>
    refine ih clear fun w member => ?_
    rcases List.mem_append.mp member with old | new
    · exact plain w old
    · rw [List.mem_singleton.mp new]
      exact ⟨Nat.succ_pos 15,fun b is => by cases is⟩
  | take i more ih =>
    simp only [run]
    split
    · exact ih _ clear plain
    · rename_i w found
      have own := plain w (List.mem_iff_getElem?.mpr ⟨i,found⟩)
      split
      · exact ih _ clear plain
      · split
        · refine ih _ clear fun w' member => ?_
          rcases List.mem_or_eq_of_mem_set member with old | rfl
          · exact plain w' old
          · exact ⟨own.positive,own.ends⟩
        · obtain ⟨kept,stays⟩ := Batches.take_plain bare (Batches.fuel view) own clear
          refine ih _ kept fun w' member => ?_
          rcases List.mem_or_eq_of_mem_set member with old | rfl
          · exact plain w' old
          · exact stays

-- A run that made no held read while the base was held read the status alone.
theorem run_status {view view' : QueryView V} (holds : view.held = true) (program : Reader Key V ScanPattern τ) {s : QueryRunning V}
    (unheld : (program.run view s).2.held = false) (alike : ∀ key ∈ (program.run view s).2.keys, view.status.get key = view'.status.get key) :
    program.run view' s = program.run view s := by
  induction program generalizing s with
  | give | fail => rfl
  | get key more ih =>
    simp only [run] at unheld alike ⊢
    have read : (got view key).isNone = false := by
      cases refused : (got view key).isNone with
      | false => rfl
      | true =>
        rw [run_keeps_held _ _ (by simp [refused])] at unheld
        cases unheld
    have same : got view' key = got view key := by
      have there := alike key (run_keeps_keys _ _ (by simp))
      unfold got at read ⊢
      rw [← there]
      cases status : view.status.get key with
      | some value => rfl
      | none =>
        rw [status,holds] at read
        exact absurd read (by simp)
    rw [same]
    exact ih _ unheld alike
  | walk pattern reverse more ih => exact ih unheld alike
  | take i more ih =>
    simp only [run] at unheld alike ⊢
    split
    · rename_i absent
      rw [absent] at unheld alike
      exact ih _ unheld alike
    · rename_i w found
      rw [found] at unheld alike
      dsimp only at unheld alike
      by_cases ended : w.ended = true
      · rw [if_pos ended] at unheld alike
        rw [if_pos ended,if_pos ended]
        exact ih _ unheld alike
      · rw [if_neg ended,if_pos holds,run_keeps_held _ _ rfl] at unheld
        cases unheld

-- A run over a view alike at all it read gives the same, as long as the base is held no more.
theorem run_again {view view' : QueryView V} (later : view'.held = true → view.held = true) (program : Reader Key V ScanPattern τ)
    (unheld : (program.run view {}).2.held = false) (plain : (program.run view {}).2.skipped = false)
    (calm : (program.run view {}).2.tangled = false) (calm' : (program.run view' {}).2.tangled = false)
    (alike : ∀ key, (program.run view {}).2.reads key = true → view.Alike view' key) :
    (program.run view' {}).1 = (program.run view {}).1 ∧ (program.run view' {}).2.held = false := by
  cases holds : view.held with
  | true =>
    rw [run_status holds program unheld fun key member => (alike key ((ReadDeps.reads_iff _ _).mpr (.inl member))).1]
    exact ⟨rfl,unheld⟩
  | false =>
    have free : view'.held = false := by
      cases now : view'.held with
      | false => rfl
      | true => rw [later now] at holds; cases holds
    obtain ⟨same,_,_,covers⟩ := run_reads holds program (QueryRunning.sound_start view) .nil calm
    obtain ⟨same',_,held,_⟩ := run_reads free program (QueryRunning.sound_start view') .nil calm'
    have again := read_alike program fun reading member key covered => (alike key (covers plain reading member key covered)).sight
    exact ⟨by rw [same,same',again],held⟩

-- Whatever it walks, in batches and turn by turn, over a base untangled under it, a query's function
-- gets what it would get of the live rows all merged and in order.
theorem run_whole {view : QueryView V} (free : view.held = false) (program : Reader Key V ScanPattern τ)
    (calm : (program.run view {}).2.tangled = false) :
    (∀ key value, (key,value) ∈ view.sight.rows ↔ view.overlay.view view.base key = some value) ∧
      (program.run view {}).1 = (read ScanPattern.picks view.sight program []).1 ∧ (program.run view {}).2.held = false := by
  obtain ⟨same,_,held,_⟩ := run_reads free program (QueryRunning.sound_start view) .nil calm
  exact ⟨view.mem_rows,same,held⟩

theorem run_whole_merged : let view : QueryView Nat := ⟨(∅ : OrderedMap Key Nat).set ['a'] 1,((∅ : Overlay Nat).set ['a'] none).set ['b'] (some 2),∅,false⟩
    let program : Reader Key Nat ScanPattern (Option (Option (Key × Nat))) := .walk ⟨⟨none,none,[]⟩,_,rfl⟩ true (.take 0 .give)
    (program.run view {}).1 = (read ScanPattern.picks view.sight program []).1 ∧ (program.run view {}).1 = some (some (some (['b'],2))) :=
  ⟨(run_whole rfl _ (by decide +kernel)).2.1,by decide +kernel⟩

end Reader
end PhaseLock
