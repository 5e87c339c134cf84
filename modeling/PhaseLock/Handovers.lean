import PhaseLock.Decisions

namespace PhaseLock
variable {V D : Type}

namespace Exchange
open Stamp
variable {wiring : Wiring} {s after : Exchange V D} {x y : Mutation D}

-- One id is of one mutation.
theorem Holds.same (held : s.Holds wiring) (known : s.Known x) (other : s.Known y) (same : x.id = y.id) : x = y := by
  have less : ∀ {a b : Mutation D}, Before a.stamp b.stamp → a.id < b.id := fun before => before.1
  rcases held.linear x y known other with is | before | before
  · exact is
  · exact absurd same (Nat.ne_of_lt (less before))
  · exact absurd same.symm (Nat.ne_of_lt (less before))

theorem Holds.settles {id : Nat} {result : MutationResult} (held : s.Holds wiring) (known : s.Known x) (is : x.id = id)
    (hears : s.Hears wiring id result) : wiring.Settled s.db.answered x := by
  obtain ⟨y,other,same,a,member,names,settles,_⟩ := hears
  rw [held.same known other (is.trans same.symm)]
  exact ⟨a,member,names,settles⟩

theorem Holds.sent_handed (held : s.Holds wiring) (member : x ∈ s.sent) : x ∈ s.handed := by
  obtain ⟨call,inside,there⟩ := List.mem_flatMap.mp member
  exact held.sends call (List.mem_filter.mp inside).1 x there

-- What its connection was handed is never late.
theorem Holds.timely (held : s.Holds wiring) (member : x ∈ s.sent) : ¬s.Late x := by
  rintro ⟨out,p,posted,given,y,inside,before⟩
  exact (held.ahead p posted y inside x member before).elim out given

theorem Holds.sorted (held : s.Holds wiring) : s.sent.Pairwise fun a b => Before a.stamp b.stamp := held.sending.lined.order _

theorem Holds.pumps {pipe : Pipe D} {limits : MutationLimits} {posted : List (Posting D)} {told : List MutationOutcome} (held : s.Holds wiring)
    (old : ∀ p ∈ s.posted, p ∈ posted)
    (posts : ∀ p ∈ posted, p ∈ s.posted ∨ Posted wiring {s with pipe,limits,posted,told} p ∧
      ∀ y ∈ p.request, ∀ x ∈ s.sent, Before x.stamp y.stamp → x ∈ s.outbox ∨ x ∈ p.given)
    (piped : Piped wiring {s with pipe,limits,posted,told}) (tells : ∀ outcome ∈ told, s.Tells wiring outcome) :
    Holds wiring {s with pipe,limits,posted,told} := by
  have grows : s.Grows {s with pipe,limits,posted,told} := ⟨fun _ => id,fun _ => id,old,fun _ => .inl,List.prefix_refl _⟩
  refine {held with
    posted := fun p member => (posts p member).elim (fun was => grows.posts (held.posted p was)) And.left
    ahead := fun p member => (posts p member).elim (held.ahead p) And.right
    piped := piped
    tracks := grows.tracks held.posted held.tracks
    waiting := fun row member => grows.whole held.posted (List.prefix_refl _) (held.waiting row member)
    replied := fun row member => grows.whole held.posted (List.prefix_refl _) (held.replied row member)
    told := fun outcome member => grows.tells (tells outcome member)
    queued := fun outcome member => grows.tells (held.queued outcome member)
    answers := fun row member => grows.hears (held.answers row member)}

-- A pipe is posted to, cut short or ended, its calls as they stand.
theorem Holds.repiped {pipe : Pipe D} {limits : MutationLimits} (held : s.Holds wiring) (piped : Piped wiring {s with pipe,limits}) :
    Holds wiring {s with pipe,limits} :=
  held.pumps (fun _ => id) (fun _ => .inl) piped held.told

theorem Holds.closes (held : s.Holds wiring) : Holds wiring (s.next wiring .close) := by
  refine held.repiped ?_
  obtain ⟨⟨done,lost,parts,settled,_⟩,idle,first⟩ := held.piped
  exact ⟨⟨done,lost,parts,settled,fun none => (by cases none)⟩,idle,first⟩

theorem Holds.fails (held : s.Holds wiring) : Holds wiring (s.next wiring .fail) := by
  refine held.repiped ?_
  obtain ⟨⟨done,lost,parts,settled,_⟩,_,_⟩ := held.piped
  refine ⟨⟨done,s.pipe.calls.flatten++lost,?_,settled,fun none => (by cases none)⟩,fun _ => ⟨rfl,rfl⟩,fun _ _ none => (by cases none)⟩
  show s.sent = _
  rw [parts]
  simp [Pipe.fail]

theorem Holds.splits {anonymous : Bool} {max : Nat} (held : s.Holds wiring) : Holds wiring (s.next wiring (.tooMany anonymous max)) := by
  refine held.repiped ?_
  obtain ⟨parts,idle,first⟩ := held.piped
  refine ⟨parts,fun none => ⟨rfl,(idle none).2⟩,fun call rest is => ?_⟩
  obtain ⟨size,hears,settled,_⟩ := first call rest is
  exact ⟨size,hears,settled,fun request none => (by cases none)⟩

-- A row the outbox still has was handed to the connection that posts, or is settled.
theorem Holds.handed_over (held : s.Holds wiring) (live : s.live) (posts : s.sent ≠ []) (member : x ∈ s.outbox) :
    wiring.Settled s.db.answered x ∨ x ∈ s.sent := by
  rcases held.left x member with stored | settled
  · obtain ⟨o,row⟩ := stored
    obtain ⟨running,going,_⟩ := live
    have handed := held.sending.handed running
    have inside := (held.kept.outboxed.ledger.rows x.id o).mpr ⟨x,row,rfl⟩
    cases resend : s.journal.engine.resend with
    | true =>
      refine absurd (List.eq_nil_iff_forall_not_mem.mpr fun z there => ?_) posts
      obtain ⟨call,inside,_⟩ := List.mem_flatMap.mp there
      obtain ⟨inside,here⟩ := List.mem_filter.mp inside
      have earlier := handed.fresh (.inr resend) call inside
      have here : call.conn = s.journal.engine.conn := by simpa using here
      omega
    | false =>
      rcases handed.handed going resend x.id o inside with sent | acked
      · obtain ⟨m,there,same⟩ := handed.sent x.id sent
        refine .inr ?_
        rw [held.same (.inl member) (.inr (held.sent_handed there)) same.symm]
        exact there
      · obtain ⟨position,low⟩ := Option.ne_none_iff_exists'.mp acked
        exact .inl (held.settles (.inl member) rfl (held.answers _ (held.kept.outboxed.told x.id position low)))
  · exact .inl settled

theorem Holds.posts {anonymous : Bool} (held : s.Holds wiring) (live : s.live) : Holds wiring (s.next wiring (.post anonymous)) := by
  unfold Exchange.next
  dsimp only
  cases made : s.pipe.next (s.limits.of anonymous) with
  | none => exact held
  | some request =>
    dsimp only
    obtain ⟨parts,idle,first⟩ := held.piped
    unfold Pipe.next at made
    split at made
    · rename_i call rest calls _
      split at made
      · cases made
        obtain ⟨size,hears,settled,_⟩ := first call rest calls
        obtain ⟨done,lost,parts,answered,open_⟩ := parts
        generalize cut : (call.drop s.pipe.results.length).take (s.limits.of anonymous) = request
        have whole : s.sent = (done++call.take s.pipe.results.length)++request++
            ((call.drop s.pipe.results.length).drop (s.limits.of anonymous)++rest.flatten++lost) := by
          have halves : call.take s.pipe.results.length++(request++(call.drop s.pipe.results.length).drop (s.limits.of anonymous)) = call := by
            rw [← cut,List.take_append_drop,List.take_append_drop]
          rw [parts,calls,List.flatten_cons]
          conv_lhs => rw [← halves]
          simp [List.append_assoc]
        have sorted := held.sorted
        rw [whole,List.append_assoc] at sorted
        have inner := (List.pairwise_append.mp sorted).2.1
        have inside : ∀ z ∈ request, z ∈ s.sent := by
          intro z member
          rw [whole]
          exact List.mem_append_left _ (List.mem_append_right _ member)
        refine held.pumps (fun p => List.mem_append_left _) (fun p member => ?_) ?_ held.told
        · rcases List.mem_append.mp member with old | new
          · exact .inl old
          · rw [List.mem_singleton.mp new]
            refine .inr ⟨⟨(List.pairwise_append.mp inner).1,inside,fun z => held.sent_handed,fun y there x owed before => ?_⟩,fun _ _ _ => fun given _ => .inr given⟩
            have some_ : s.sent ≠ [] := List.ne_nil_of_mem (inside y there)
            have both : wiring.Settled s.db.answered x ∨ x ∈ s.sent := owed.elim (held.handed_over live some_) .inr
            rcases both with settled | given
            · exact .inl settled
            · rw [whole] at given
              rcases List.mem_append.mp given with front | back
              · rcases List.mem_append.mp front with earlier | asked
                · rcases List.mem_append.mp earlier with over_ | had
                  · exact .inl (answered x over_)
                  · exact .inl (settled x had)
                · exact .inr (.inr asked)
              · exact absurd before ((List.pairwise_append.mp inner).2.2 y there x back).asymm
        · refine ⟨⟨done,lost,parts,answered,open_⟩,fun none => ?_,fun call' rest' is => ?_⟩
          · have none : s.pipe.calls = [] := none
            rw [none] at calls
            cases calls
          · have is : s.pipe.calls = call' :: rest' := is
            rw [calls] at is
            cases is
            refine ⟨size,hears,settled,fun asked same => ?_⟩
            cases same
            refine ⟨⟨_,List.mem_append_right _ List.mem_cons_self,rfl⟩,?_⟩
            rw [← cut]
            exact List.take_prefix _ _
      · cases made
    · cases made

-- A whole reply's outcomes, heard for the mutations of its request.
theorem hears_all {xs : List (Mutation D)} {outcomes : List Outcome} (told : List.Forall₂ (s.Told wiring s.db.answered) xs outcomes)
    (timely : ∀ x ∈ xs, s.Known x ∧ ¬s.Late x) :
    (∀ row ∈ (xs.map Mutation.id).zip (outcomes.map wiring.result), s.Hears wiring row.1 row.2) ∧ ∀ x ∈ xs, wiring.Settled s.db.answered x := by
  induction told with
  | nil => exact ⟨fun _ none => (by cases none),fun _ none => (by cases none)⟩
  | cons head rest ih =>
    rename_i x outcome xs outcomes
    obtain ⟨known,timely'⟩ := timely x List.mem_cons_self
    obtain ⟨hears,settled⟩ := ih fun z member => timely z (List.mem_cons_of_mem _ member)
    obtain ⟨a,member,names,settles,low⟩ := head.resolve_left timely'
    refine ⟨fun row inside => ?_,fun z inside => ?_⟩
    · rw [List.map_cons,List.map_cons,List.zip_cons_cons] at inside
      rcases List.mem_cons.mp inside with rfl | later
      · refine ⟨x,known,rfl,a,member,names,settles,fun position is row listed => ?_⟩
        cases outcome with
        | ok at_ =>
          cases is
          exact Int.ofNat_le.mpr (low at_ rfl row listed)
        | reject | conflict => cases is
      · exact hears row later
    · rcases List.mem_cons.mp inside with rfl | later
      · exact ⟨a,member,names,settles⟩
      · exact settled z later

theorem Holds.responds {sub : Submitted D} (held : s.Holds wiring) (allowed : s.Allowed wiring (.respond sub)) :
    Holds wiring (s.next wiring (.respond sub)) := by
  obtain ⟨_,status,bounce,flying,replied⟩ := allowed
  obtain ⟨⟨done,lost,parts,answered,open_⟩,idle,first⟩ := held.piped
  unfold Exchange.next
  dsimp only
  cases calls : s.pipe.calls with
  | nil =>
    rw [(idle calls).1] at flying
    cases flying
  | cons call rest =>
    obtain ⟨size,hears,settled,asks⟩ := first call rest calls
    obtain ⟨_,left,split⟩ := asks sub.request flying
    have told : List.Forall₂ (s.Told wiring s.db.answered) sub.request sub.outcomes := by
      obtain ⟨_,rest,whole,told,all⟩ := (held.replied sub replied).told status
      rw [whole,all bounce,List.append_nil]
      exact told
    have halves : call = (call.take s.pipe.results.length++sub.request)++left := by
      rw [List.append_assoc,split,List.take_append_drop]
    have inside : ∀ x ∈ call, x ∈ s.sent := by
      intro x member
      rw [parts,calls,List.flatten_cons]
      exact List.mem_append_left _ (List.mem_append_right _ (List.mem_append_left _ member))
    have asked : ∀ x ∈ sub.request, x ∈ call := by
      intro x member
      rw [halves]
      exact List.mem_append_left _ (List.mem_append_right _ member)
    obtain ⟨heard,decided⟩ := hears_all told fun x member =>
      ⟨.inr (held.sent_handed (inside x (asked x member))),held.timely (inside x (asked x member))⟩
    have count : (sub.outcomes.map wiring.result).length = sub.request.length := by
      rw [List.length_map]
      exact told.length_eq.symm
    have taken : (call.take s.pipe.results.length).length = s.pipe.results.length := by
      rw [List.length_take]
      omega
    have all : ∀ row ∈ (call.map Mutation.id).zip (s.pipe.results++sub.outcomes.map wiring.result), s.Hears wiring row.1 row.2 := by
      intro row member
      have ids : call.map Mutation.id = (call.take s.pipe.results.length).map Mutation.id++(sub.request.map Mutation.id++left.map Mutation.id) := by
        conv_lhs => rw [halves]
        rw [List.map_append,List.map_append,List.append_assoc]
      have sized : ((call.take s.pipe.results.length).map Mutation.id).length = s.pipe.results.length := by rw [List.length_map,taken]
      rw [ids] at hears member
      rw [List.zip_append sized] at member
      rcases List.mem_append.mp member with old | new
      · refine hears row ?_
        have padded := List.mem_append_left ((sub.request.map Mutation.id++left.map Mutation.id).zip []) old
        rwa [← List.zip_append sized,List.append_nil] at padded
      · have level : (sub.request.map Mutation.id).length = (sub.outcomes.map wiring.result).length := by rw [List.length_map,count]
        rw [← List.append_nil (sub.outcomes.map wiring.result),List.zip_append level,List.zip_nil_right,List.append_nil] at new
        exact heard row new
    have over_ : ∀ x ∈ call.take s.pipe.results.length++sub.request, wiring.Settled s.db.answered x := fun x member =>
      (List.mem_append.mp member).elim (settled x) (decided x)
    have lengths : (call.take s.pipe.results.length++sub.request).length = (s.pipe.results++sub.outcomes.map wiring.result).length := by
      rw [List.length_append,List.length_append,taken,count]
    unfold Pipe.answered
    rw [calls]
    dsimp only
    split
    · rename_i short
      refine held.pumps (fun _ => id) (fun _ => .inl) ⟨⟨done,lost,by rw [calls] at parts; exact parts,answered,open_⟩,fun none => (by cases none),fun call' rest' is => ?_⟩ ?_
      · cases is
        refine ⟨le_of_lt short,all,fun x member => over_ x ?_,fun _ none => (by cases none)⟩
        have member : x ∈ call.take (s.pipe.results++sub.outcomes.map wiring.result).length := member
        rw [halves,List.take_left' lengths] at member
        exact member
      · intro outcome member
        refine held.told outcome ?_
        simpa using member
    · rename_i full
      have none : left = [] := by
        have total := congrArg List.length halves
        rw [List.length_append,lengths] at total
        exact List.length_eq_zero_iff.mp (by omega)
      have whole : call = call.take s.pipe.results.length++sub.request := by
        conv_lhs => rw [halves,none,List.append_nil]
      refine held.pumps (fun _ => id) (fun _ => .inl) ⟨⟨done++call,lost,?_,fun x member => ?_,open_⟩,fun _ => ⟨rfl,rfl⟩,fun call' rest' is => ?_⟩ ?_
      · show s.sent = _
        rw [parts,calls,List.flatten_cons]
        simp
      · rcases List.mem_append.mp member with old | new
        · exact answered x old
        · rw [whole] at new
          exact over_ x new
      · exact ⟨Nat.zero_le _,fun _ none => (by simp at none),fun _ none => (by simp at none),fun _ none => (by cases none)⟩
      · intro outcome member
        rcases List.mem_append.mp member with old | new
        · exact held.told outcome old
        · have new : outcome ∈ [(⟨call.map Mutation.id,some (s.pipe.results++sub.outcomes.map wiring.result),s.journal.engine.conn⟩ : MutationOutcome)] := new
          rw [List.mem_singleton.mp new]
          intro results is row inside
          cases is
          exact all row inside

end Exchange
end PhaseLock
