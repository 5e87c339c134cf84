import PhaseLock.Completeness
import PhaseLock.Server

namespace PhaseLock
open Selectors (intersect viewToken)

-- The results on their way between the published position and the core's head: each commit's
-- edits are above every commit before it.
def Pipes : Nat → List Res → Nat → Prop
  | position,[],head => position = head
  | position,.commit at_ items :: rest,head => items ≠ [] ∧ lastPosition items = some at_ ∧ items.Pairwise LogRow.Before ∧
      (∀ row ∈ items, position < row.position) ∧ Pipes at_ rest head
  | position,.view _ at_ :: rest,head => position ≤ at_ ∧ at_ ≤ head ∧ Pipes position rest head
  | position,.registered _ at_ :: rest,head => position = at_ ∧ Pipes position rest head
  | position,_ :: rest,head => Pipes position rest head

def Res.items : Res → List LogRow
  | .commit _ items => items
  | _ => []

theorem LogRow.Before.le {a b : LogRow} (before : a.Before b) : a.position ≤ b.position := by
  rcases before with less | ⟨same,_⟩ <;> omega

theorem before_le {rows : List LogRow} (ordered : rows.Pairwise LogRow.Before) :
    rows.Pairwise (fun a b => a.position ≤ b.position) := ordered.imp LogRow.Before.le

theorem lastPosition_top {items : List LogRow} (ordered : items.Pairwise (fun a b => a.position ≤ b.position))
    (last : lastPosition items = some top) : ∀ row ∈ items, row.position ≤ top := by
  intro row member
  obtain ⟨final,isLast,rfl⟩ := Option.map_eq_some_iff.mp last
  obtain ⟨front,rfl⟩ := List.getLast?_eq_some_iff.mp isLast
  rcases List.mem_append.mp member with early | now
  · exact (List.pairwise_append.mp ordered).2.2 row early final (by simp)
  · rw [List.mem_singleton.mp now]

theorem lastPosition_mem {items : List LogRow} (last : lastPosition items = some top) :
    ∃ row ∈ items, row.position = top := by
  obtain ⟨final,isLast,rfl⟩ := Option.map_eq_some_iff.mp last
  exact ⟨final,List.mem_of_getLast? isLast,rfl⟩

theorem lastPosition_some {items : List LogRow} (nonempty : items ≠ []) : ∃ top, lastPosition items = some top :=
  ⟨_,by rw [lastPosition,List.getLast?_eq_some_getLast nonempty]; rfl⟩

theorem Pipes.le (pipes : Pipes position channel head) : position ≤ head := by
  induction channel generalizing position with
  | nil => exact Nat.le_of_eq pipes
  | cons res rest ih =>
    cases res with
    | commit at_ items =>
      obtain ⟨nonempty,last,_,above,after⟩ := pipes
      obtain ⟨row,member,rfl⟩ := lastPosition_mem last
      exact (above row member).le.trans (ih after)
    | view grant at_ => exact ih pipes.2.2
    | registered grant at_ => exact ih pipes.2
    | account generation => exact ih pipes
    | forgotten => exact ih pipes
    | shutdown => exact ih pipes

theorem pipes_items (pipes : Pipes position channel head) :
    ∀ row ∈ channel.flatMap Res.items, position < row.position := by
  induction channel generalizing position with
  | nil => simp
  | cons res rest ih =>
    intro row member
    rw [List.flatMap_cons,List.mem_append] at member
    cases res with
    | commit at_ items =>
      obtain ⟨_,last,_,above,after⟩ := pipes
      rcases member with here | later
      · exact above row here
      · obtain ⟨final,finalIn,same⟩ := lastPosition_mem last
        have past := ih after row later
        have first := above final finalIn
        omega
    | view grant at_ => exact ih pipes.2.2 row (by simpa [Res.items] using member)
    | registered grant at_ => exact ih pipes.2 row (by simpa [Res.items] using member)
    | account generation => exact ih pipes row (by simpa [Res.items] using member)
    | forgotten => exact ih pipes row (by simpa [Res.items] using member)
    | shutdown => exact ih pipes row (by simpa [Res.items] using member)

theorem Pipes.append (left : Pipes position channel middle) (right : Pipes middle more head) :
    Pipes position (channel++more) head := by
  induction channel generalizing position with
  | nil =>
    cases left
    exact right
  | cons res rest ih =>
    cases res with
    | commit at_ items => exact ⟨left.1,left.2.1,left.2.2.1,left.2.2.2.1,ih left.2.2.2.2⟩
    | view grant at_ => exact ⟨left.1,left.2.1.trans right.le,ih left.2.2⟩
    | registered grant at_ => exact ⟨left.1,ih left.2⟩
    | account generation => exact ih left
    | forgotten => exact ih left
    | shutdown => exact ih left

namespace Server
variable {σ : Type} {host : Host σ} {who : Principal} {core : DbCore σ} {b : Batch σ}

theorem accountResults_pipes (told : Option Int) (looked : Bool) (generation : Int) (rest : List Res) (position head : Nat) :
    Pipes position (accountResults told looked generation++rest) head = Pipes position rest head := by
  unfold accountResults
  split
  · split <;> rfl
  · split <;> rfl

theorem batch_head (follows : b.Follows core) : core.head ≤ (lastPosition b.items).getD core.head := by
  cases last : lastPosition b.items with
  | none => exact le_refl _
  | some top =>
    obtain ⟨row,member,rfl⟩ := lastPosition_mem last
    exact (follows.above row member).le

theorem batch_pipes (follows : b.Follows core) :
    Pipes core.head (batchResults host who core b) ((lastPosition b.items).getD core.head) := by
  have up := batch_head follows
  unfold batchResults
  dsimp only
  rw [List.append_assoc,List.append_assoc,accountResults_pipes]
  have replies : ∀ head grant, Pipes head (if b.register.isSome = true then [.registered grant head] else []) head := by
    intro head grant
    split
    · exact ⟨rfl,rfl⟩
    · rfl
  have commits : ∀ grant, Pipes core.head ((if b.items = [] then [] else
      [.commit ((lastPosition b.items).getD core.head) b.items])++
      if b.register.isSome = true then [.registered grant ((lastPosition b.items).getD core.head)] else [])
      ((lastPosition b.items).getD core.head) := by
    intro grant
    split
    · rename_i empty
      rw [empty]
      exact replies _ _
    · rename_i nonempty
      obtain ⟨top,last⟩ := lastPosition_some nonempty
      rw [last]
      exact ⟨nonempty,last,follows.ordered,follows.above,replies _ _⟩
  split
  · exact ⟨up,le_refl _,commits _⟩
  · exact commits _

theorem batch_items : (batchResults host who core b).flatMap Res.items = b.items := by
  have accounts : ∀ looked generation, (accountResults core.account looked generation).flatMap Res.items = [] := by
    intro looked generation
    unfold accountResults
    split
    · split <;> rfl
    · split <;> rfl
  unfold batchResults
  dsimp only
  simp only [List.flatMap_append,accounts]
  split <;> split <;> split <;> simp_all [Res.items]

end Server

namespace Conn

-- A connection its handler will end once it has written what is queued.
def Ending (c : Conn) : Prop := c.overflowed = true ∨ c.shutdown = true ∨ ∃ code, .ends code ∈ c.backlog

-- What an active connection is.
structure Alive (c : Conn) : Prop where
  running : c.overflowed = false ∧ c.shutdown = false ∧ ∀ code, .ends code ∉ c.backlog
  trusted : c.revoked = false
  viewed : c.token = viewToken c.selectors
  granted : c.failure = none
  lasting : c.ephemeral = false

-- What the next result queues to an active connection, and the view it leaves it.
def frames (position : Nat) (c : Conn) : Res → List Queued
  | .view (.ok granted) _ => if c.token ≠ viewToken (intersect granted c.wants) then [.view position (intersect granted c.wants)] else []
  | .commit _ items => if c.streaming = true ∧ coversAny c.selectors items = true then [.commit (groupPositions items)] else []
  | _ => []

def viewed (c : Conn) : Res → List Name
  | .view (.ok granted) _ => intersect granted c.wants
  | _ => c.selectors

variable {c : Conn} {limit position : Nat} {res : Res}

theorem queue_cases (limit : Nat) (active : c.active = true) (frame : Queued) :
    c.queue limit frame = {c with backlog:=c.backlog++[frame]} ∨
    c.queue limit frame = {c with
      overflowed:=true
      active:=false} := by
  unfold queue
  simp only [active,Bool.not_true,Bool.false_eq_true,if_false]
  split
  · exact Or.inr rfl
  · exact Or.inl rfl

-- A result changes neither what a connection was opened with nor whether it streams.
theorem reaches_same (limit position : Nat) (res : Res) (c : Conn) :
    (res.reaches limit position c).streaming = c.streaming ∧ (res.reaches limit position c).wants = c.wants ∧
    (res.reaches limit position c).principal = c.principal ∧ (res.reaches limit position c).ephemeral = c.ephemeral := by
  have queued : ∀ (d : Conn) frame, (d.queue limit frame).streaming = d.streaming ∧ (d.queue limit frame).wants = d.wants ∧
      (d.queue limit frame).principal = d.principal ∧ (d.queue limit frame).ephemeral = d.ephemeral := by
    intro d frame
    unfold queue
    split
    · exact ⟨rfl,rfl,rfl,rfl⟩
    · split <;> exact ⟨rfl,rfl,rfl,rfl⟩
  cases res with
  | account generation =>
    simp only [Res.reaches,account]
    split
    · exact ⟨rfl,rfl,rfl,rfl⟩
    · exact queued {c with revoked:=true} _
  | forgotten => exact ⟨rfl,rfl,rfl,rfl⟩
  | view grant at_ =>
    cases grant with
    | ok granted =>
      simp only [Res.reaches,view]
      split
      · exact queued _ _
      · exact ⟨rfl,rfl,rfl,rfl⟩
    | error why =>
      simp only [Res.reaches,view]
      split
      · exact queued _ _
      · exact ⟨rfl,rfl,rfl,rfl⟩
  | commit at_ items =>
    simp only [Res.reaches,commit]
    split
    · exact queued _ _
    · exact ⟨rfl,rfl,rfl,rfl⟩
  | registered grant at_ =>
    rcases grant with _ | why | granted <;> exact ⟨rfl,rfl,rfl,rfl⟩
  | shutdown =>
    simp only [Res.reaches,stop]
    split <;> exact ⟨rfl,rfl,rfl,rfl⟩

theorem reaches_revoked (revoked : c.revoked = true) : (res.reaches limit position c).revoked = true := by
  have queued : ∀ (d : Conn) frame, (d.queue limit frame).revoked = d.revoked := by
    intro d frame
    unfold queue
    split
    · rfl
    · split <;> rfl
  cases res with
  | account generation => simp [Res.reaches,account,revoked]
  | forgotten => exact revoked
  | view grant at_ =>
    cases grant with
    | ok granted =>
      simp only [Res.reaches,view]
      split
      · exact (queued _ _).trans revoked
      · exact revoked
    | error why =>
      simp only [Res.reaches,view]
      split
      · exact (queued _ _).trans revoked
      · exact revoked
  | commit at_ items =>
    simp only [Res.reaches,commit]
    split
    · exact (queued _ _).trans revoked
    · exact revoked
  | registered grant at_ => rcases grant with _ | why | granted <;> exact revoked
  | shutdown =>
    simp only [Res.reaches,stop]
    split <;> exact revoked

-- An inactive connection takes no frames, and nothing but its registration starts it.
theorem reaches_idle (limit position : Nat) (idle : c.active = false) (other : ∀ grant at_, res ≠ .registered grant at_) :
    (res.reaches limit position c).active = false ∧ (res.reaches limit position c).backlog = c.backlog ∧
    (res.reaches limit position c).overflowed = c.overflowed ∧ (res.reaches limit position c).shutdown = c.shutdown := by
  have queued : ∀ (d : Conn) frame, d.active = false → d.queue limit frame = d := by
    intro d frame inactive
    simp [queue,inactive]
  cases res with
  | account generation =>
    simp only [Res.reaches,account]
    split
    · exact ⟨idle,rfl,rfl,rfl⟩
    · rw [queued _ _ (by exact idle)]
      exact ⟨rfl,rfl,rfl,rfl⟩
  | forgotten => exact ⟨idle,rfl,rfl,rfl⟩
  | view grant at_ => cases grant <;> simp [Res.reaches,view,idle]
  | commit at_ items => simp [Res.reaches,commit,idle]
  | registered grant at_ => exact absurd rfl (other grant at_)
  | shutdown => simp [Res.reaches,stop,idle]

-- An active connection takes its frames and stays active, or is ending.
theorem reaches_active (limit position : Nat) (alive : c.Alive) (active : c.active = true) (other : ∀ grant at_, res ≠ .registered grant at_) :
    (res.reaches limit position c = {c with
      selectors:=c.viewed res
      token:=viewToken (c.viewed res)
      backlog:=c.backlog++c.frames position res}) ∨
    ((res.reaches limit position c).active = false ∧ (res.reaches limit position c).Ending ∧
      ∃ more, (res.reaches limit position c).backlog = c.backlog++more ∧ ∀ frame ∈ more, ∃ code, frame = .ends code) := by
  obtain ⟨running,trusted,viewed_,granted,lasting⟩ := alive
  have plain : c = {c with
      selectors:=c.selectors
      token:=viewToken c.selectors
      backlog:=c.backlog++[]} := by rw [← viewed_]; simp
  -- an end is queued, or the backlog overflows
  have ends : ∀ (d : Conn) code, d.active = true → d.backlog = c.backlog →
      ({d.queue limit (.ends code) with active:=false} : Conn).Ending ∧
      ∃ more, (d.queue limit (.ends code)).backlog = c.backlog++more ∧ ∀ frame ∈ more, ∃ code, frame = .ends code := by
    intro d code on same
    rcases queue_cases limit on (.ends code) with pushed | full
    · rw [pushed]
      exact ⟨Or.inr (Or.inr ⟨code,by simp⟩),[.ends code],by simp [same],by simp⟩
    · rw [full]
      exact ⟨Or.inl rfl,[],by simp [same],by simp⟩
  -- any frame is queued, or the backlog overflows
  have queued : ∀ (d : Conn) frame, d.active = true → d.backlog = c.backlog →
      d.queue limit frame = {d with backlog:=d.backlog++[frame]} ∨
      ((d.queue limit frame).active = false ∧ (d.queue limit frame).Ending ∧
        ∃ more, (d.queue limit frame).backlog = c.backlog++more ∧ ∀ frame ∈ more, ∃ code, frame = .ends code) := by
    intro d frame on same
    rcases queue_cases limit on frame with pushed | full
    · exact Or.inl pushed
    · rw [full]
      exact Or.inr ⟨rfl,Or.inl rfl,[],by simp [same],by simp⟩
  cases res with
  | account generation =>
    simp only [Res.reaches,account]
    split
    · exact Or.inl plain
    · obtain ⟨ending,more⟩ := ends {c with revoked:=true} endRevoked active rfl
      exact Or.inr ⟨rfl,ending,more⟩
  | forgotten => exact Or.inl plain
  | view grant at_ =>
    cases grant with
    | ok granted_ =>
      simp only [Res.reaches,view,Conn.viewed,frames]
      by_cases changed : c.token ≠ viewToken (intersect granted_ c.wants)
      · rw [if_pos ⟨active,changed⟩,if_pos changed]
        rcases queued {c with
          selectors:=intersect granted_ c.wants
          token:=viewToken (intersect granted_ c.wants)
          failure:=none} (.view position (intersect granted_ c.wants)) active rfl with pushed | full
        · exact Or.inl (by rw [pushed,granted])
        · exact Or.inr full
      · rw [if_neg fun both => changed both.2,if_neg changed]
        exact Or.inl (by simp [granted])
    | error why =>
      simp only [Res.reaches,view]
      rw [if_pos active]
      obtain ⟨ending,more⟩ := ends {c with failure:=some why} endGrantorFailed active rfl
      exact Or.inr ⟨rfl,ending,more⟩
  | commit at_ items =>
    simp only [Res.reaches,commit,Conn.viewed,frames]
    by_cases takes : c.streaming = true ∧ coversAny c.selectors items = true
    · rw [if_pos ⟨active,takes⟩,if_pos takes]
      rcases queued c (.commit (groupPositions items)) active rfl with pushed | full
      · exact Or.inl (by rw [pushed,← viewed_])
      · exact Or.inr full
    · rw [if_neg fun both => takes both.2,if_neg takes]
      exact Or.inl plain
  | registered grant at_ => exact absurd rfl (other grant at_)
  | shutdown =>
    simp only [Res.reaches,stop]
    rw [if_pos active]
    exact Or.inr ⟨rfl,Or.inr (Or.inl rfl),[],by simp,by simp⟩

end Conn

end PhaseLock
