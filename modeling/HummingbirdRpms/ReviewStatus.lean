/-
# HummingbirdRpms.ReviewStatus — what `create_mr.sh` says of a branch, over its history.

The script exits 2, for a merge request that exists, when the remote has a branch of the name.  It has one
since the first push of any run, and a push can be accepted and open no merge request; later the request is
merged or closed, and the branch may stay.  A history is a sequence of such runs and of what happens to the
branch in between.

**`truthful_of_careful`** — where every accepted push leaves an open merge request, every request that ends
takes its branch along, and no other branch ends in the name, the status is 2 only while a request is open.
**`untruthful_forever`** — where it is not, no later run changes that.
-/
import HummingbirdRpms.MultiMr

namespace HummingbirdRpms.ReviewStatus

open Lib Lib.Text MultiMr

/-! ## Runs and other events -/

/-- A branch on the remote, and its merge request. -/
structure Review where
  hasBranch : Bool
  isOpen : Bool
  deriving DecidableEq

/-- What a run of the script meets: how its commands end, the other branches of the remote, and whether a
merge request is open for the branch after a push that is accepted. -/
structure Meeting where
  answers : MultiMr.Answers
  otherBranches : List Str
  opened : Bool

/-- What happens to a branch. -/
inductive Event where
  | run (m : Meeting)
  /-- The merge request is merged or closed. -/
  | ended (branchDeleted : Bool)
  /-- The branch is deleted, which closes its request. -/
  | branchDeleted
  /-- Somebody opens a merge request for the branch. -/
  | requested

/-- Whether `git ls-remote --heads` lists a branch; it matches the last parts of a name. -/
def isListed (name : Str) (s : Review) (m : Meeting) : Bool :=
  s.hasBranch || m.otherBranches.any fun b => endsWith ('/' :: name) b

/-- A run of `create_mr.sh`: its status, and the branch after it. -/
def createMr (name : Str) (s : Review) (m : Meeting) : Nat × Review :=
  let remote : Remote := fun _ => if isListed name s m then some .found else none
  let (status, remote) := MultiMr.createMr remote name [] m.answers
  (status, if (remote name).any Branch.isPushed then ⟨true, m.opened⟩ else s)

/-- What comes of an event. -/
def after (name : Str) (s : Review) : Event → Review
  | .run m => (createMr name s m).2
  | .ended branchDeleted => ⟨s.hasBranch && !branchDeleted, false⟩
  | .branchDeleted => ⟨false, false⟩
  | .requested => ⟨s.hasBranch, s.hasBranch⟩

/-- Every run of a history that exits 2 does so while a merge request is open. -/
def Truthful (name : Str) (s : Review) : List Event → Prop
  | [] => True
  | e :: rest =>
      (∀ m, e = .run m → (createMr name s m).1 = 2 → s.isOpen = true) ∧ Truthful name (after name s e) rest

/-- A push that is accepted leaves an open request, a request that ends takes its branch along, and no other
branch ends in the name. -/
def Careful (name : Str) : Event → Prop
  | .run m => (m.answers.push = true → m.opened = true) ∧ ∀ b ∈ m.otherBranches, ¬ endsWith ('/' :: name) b = true
  | .ended branchDeleted => branchDeleted = true
  | .branchDeleted => True
  | .requested => True

/-- The branch is under review if it is there. -/
def InReview (s : Review) : Prop := s.hasBranch = true → s.isOpen = true

/-! ## One run -/

section

variable {name sha : Str} {remote : Remote} {a : MultiMr.Answers} {s : Review} {m : Meeting} {e : Event}
  {events : List Event}

/-- When the script exits 2. -/
theorem createMr_two_iff :
    (MultiMr.createMr remote name sha a).1 = 2 ↔
      (∃ n, a.ahead = some (n + 1)) ∧ a.lsRemote = true ∧ (remote name).isSome = true := by
  unfold MultiMr.createMr
  cases a.ahead with
  | none => simp [abortStatus]
  | some n =>
      cases n with
      | zero => simp
      | succ n =>
          dsimp only
          by_cases hseen : (a.lsRemote && (remote name).isSome) = true
          · rw [if_pos hseen]
            exact iff_of_true rfl ⟨⟨n, rfl⟩, Bool.and_eq_true_iff.mp hseen⟩
          · rw [if_neg hseen]
            refine iff_of_false ?_ fun h => hseen (Bool.and_eq_true_iff.mpr h.2)
            split
            · exact (by decide : ¬ abortStatus = 2)
            · split
              · exact (by decide : ¬ 1 = 2)
              · show ¬ (if a.mergeRequest = true then 0 else 1) = 2
                split
                · decide
                · decide

/-- It leaves the remote alone then. -/
theorem createMr_two_remote (h : (MultiMr.createMr remote name sha a).1 = 2) :
    (MultiMr.createMr remote name sha a).2 = remote := by
  obtain ⟨⟨n, hahead⟩, hls, hbranch⟩ := createMr_two_iff.mp h
  unfold MultiMr.createMr
  simp only [hahead, hls, hbranch, Bool.and_self, if_true]

/-- The script leaves the remote alone, or its push is accepted. -/
theorem createMr_remote : (MultiMr.createMr remote name sha a).2 = remote ∨
    (a.push = true ∧ (MultiMr.createMr remote name sha a).2 = Function.update remote name (some (.pushed [sha]))) := by
  unfold MultiMr.createMr
  split
  · exact Or.inl rfl
  · exact Or.inl rfl
  · split
    · exact Or.inl rfl
    · split
      · exact Or.inl rfl
      · split
        · exact Or.inl rfl
        · rename_i hpush
          rw [Bool.or_eq_true, not_or, Bool.not_eq_true', Bool.not_eq_false] at hpush
          exact Or.inr ⟨hpush.1, rfl⟩

theorem status_two_iff :
    (createMr name s m).1 = 2 ↔
      (∃ n, m.answers.ahead = some (n + 1)) ∧ m.answers.lsRemote = true ∧ isListed name s m = true := by
  show (MultiMr.createMr _ name [] m.answers).1 = 2 ↔ _
  rw [createMr_two_iff]
  cases isListed name s m with
  | true => rfl
  | false => rfl

theorem isPushed_listed :
    (if isListed name s m then some Branch.found else none).any Branch.isPushed = false := by
  cases isListed name s m with
  | true => rfl
  | false => rfl

/-- A run that exits 2 leaves the branch alone. -/
theorem createMr_two_snd (h : (createMr name s m).1 = 2) : (createMr name s m).2 = s := by
  let remote : Remote := fun _ => if isListed name s m then some .found else none
  have hsame : (MultiMr.createMr remote name [] m.answers).2 = remote := createMr_two_remote h
  show (if ((MultiMr.createMr remote name [] m.answers).2 name).any Branch.isPushed then (⟨true, m.opened⟩ : Review)
    else s) = s
  rw [hsame, if_neg (Bool.eq_false_iff.mp isPushed_listed)]

/-- A run leaves the branch alone, or has pushed it. -/
theorem createMr_snd : (createMr name s m).2 = s ∨
    (m.answers.push = true ∧ (createMr name s m).2 = ⟨true, m.opened⟩) := by
  let remote : Remote := fun _ => if isListed name s m then some .found else none
  show (if ((MultiMr.createMr remote name [] m.answers).2 name).any Branch.isPushed then (⟨true, m.opened⟩ : Review)
      else s) = s ∨ _ ∧
    (if ((MultiMr.createMr remote name [] m.answers).2 name).any Branch.isPushed then (⟨true, m.opened⟩ : Review)
      else s) = _
  rcases @createMr_remote name [] remote m.answers with hsame | ⟨hpush, hpushed⟩
  · rw [hsame, if_neg (Bool.eq_false_iff.mp isPushed_listed)]
    exact Or.inl rfl
  · rw [hpushed, Function.update_self]
    exact Or.inr ⟨hpush, rfl⟩

/-- What an event leaves of a branch that is under review if it is there. -/
theorem inReview_after (he : Careful name e) (hs : InReview s) : InReview (after name s e) := by
  cases e with
  | run m =>
      rcases @createMr_snd name s m with hsame | ⟨hpush, hpushed⟩
      · show InReview (createMr name s m).2
        rwa [hsame]
      · show InReview (createMr name s m).2
        rw [hpushed]
        exact fun _ => he.1 hpush
  | ended branchDeleted =>
      obtain rfl : branchDeleted = true := he
      intro hbranch
      rw [after, Bool.not_true, Bool.and_false] at hbranch
      cases hbranch
  | branchDeleted =>
      intro hbranch
      cases hbranch
  | requested => exact fun hbranch => hbranch

/-- A run that sees no other branch tells the truth of a branch that is under review if it is there. -/
theorem truthful_run (he : Careful name (.run m)) (hs : InReview s) (h : (createMr name s m).1 = 2) :
    s.isOpen = true := by
  obtain ⟨-, -, hlisted⟩ := status_two_iff.mp h
  rw [isListed, Bool.or_eq_true, List.any_eq_true] at hlisted
  rcases hlisted with hbranch | ⟨b, hb, hends⟩
  · exact hs hbranch
  · exact absurd hends (he.2 b hb)

/-! ## Histories -/

/-- **`truthful_of_careful`** — in a history of careful events every run that exits 2 does so while a merge
request is open. -/
theorem truthful_of_careful (name : Str) (s : Review) (events : List Event) (hs : InReview s)
    (hcareful : ∀ e ∈ events, Careful name e) : Truthful name s events := by
  induction events generalizing s with
  | nil => trivial
  | cons e events ih =>
      obtain ⟨he, hrest⟩ := List.forall_mem_cons.mp hcareful
      refine ⟨?_, ih _ (inReview_after he hs) hrest⟩
      rintro m rfl h
      exact truthful_run he hs h

/-- **`untruthful_forever`** — once the branch is there without a request, every run that has commits and can
list the branches exits 2, and leaves it so. -/
theorem untruthful_forever (runs : List Meeting)
    (hruns : ∀ m ∈ runs, (∃ n, m.answers.ahead = some (n + 1)) ∧ m.answers.lsRemote = true) :
    (runs.map Event.run).foldl (after name) ⟨true, false⟩ = ⟨true, false⟩ ∧
      ∀ m ∈ runs, (createMr name ⟨true, false⟩ m).1 = 2 := by
  have hstatus : ∀ m ∈ runs, (createMr name ⟨true, false⟩ m).1 = 2 := fun m hm =>
    status_two_iff.mpr ⟨(hruns m hm).1, (hruns m hm).2, rfl⟩
  refine ⟨?_, hstatus⟩
  clear hruns
  induction runs with
  | nil => rfl
  | cons m runs ih =>
      obtain ⟨hm, hrest⟩ := List.forall_mem_cons.mp hstatus
      rw [List.map_cons, List.foldl_cons]
      show (runs.map Event.run).foldl (after name) (createMr name ⟨true, false⟩ m).2 = _
      rw [createMr_two_snd hm]
      exact ih hrest

end

/-- A push that is accepted, and a request for it. -/
def opening : Meeting := ⟨{}, [], true⟩

/-- The same, but GitLab opens no request. -/
def halfFailed : Meeting := ⟨{ mergeRequest := false }, [], false⟩

/-- A branch that is pushed, seen again, merged and pushed again. -/
theorem truthful_of_careful_merged :
    Truthful "chore/rebuild-bash".toList ⟨false, false⟩
      [.run opening, .run opening, .ended true, .run opening, .run opening] :=
  truthful_of_careful _ _ _ (fun h => by cases h) (by
    intro e he
    simp only [List.mem_cons, List.not_mem_nil, or_false] at he
    rcases he with rfl | rfl | rfl | rfl | rfl
    all_goals first
      | exact ⟨fun _ => rfl, fun b hb => absurd hb List.not_mem_nil⟩
      | exact rfl)

/-- **`half_failed_run_lies`** — after a push without a request the next run reports one that is not there, and
so it does after a request is closed and its branch kept. -/
theorem half_failed_run_lies :
    ¬ Truthful "chore/rebuild-bash".toList ⟨false, false⟩ [.run halfFailed, .run opening] ∧
      ¬ Truthful "chore/rebuild-bash".toList ⟨false, false⟩ [.run opening, .ended false, .run opening] := by
  constructor
  · rintro ⟨-, h, -⟩
    exact absurd (h opening rfl (by decide)) (by decide)
  · rintro ⟨-, -, h, -⟩
    exact absurd (h opening rfl (by decide)) (by decide)

end HummingbirdRpms.ReviewStatus
