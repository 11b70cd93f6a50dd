import Sem3.Shell.MainSpec
import Sem3.Util.Run

/-!
# Proofs: the steps of the shell

`Fires` says once what a step can be. The proofs about runs go through its cases.
-/

namespace Sem3.Shell

variable {s s' : Session} {a : Answers} {act : Act} {text : List Char} {split : List (List Char)}

/-! ## The words of a line -/

/-- The descriptors behind the creation of the pipe, and the ends of the pipe, if there is one. -/
def pipeFds (T : Fds) (npipes : ℕ) : Fds := if npipes = 2 then (openPipe T).2 else T

/-- The ends of the pipe that is created for the stages. -/
def pipeEnds (T : Fds) (npipes : ℕ) : ℕ × ℕ := if npipes = 2 then (openPipe T).1 else (0, 0)

theorem runWords_eq (s : Session) (a : Answers) (split : List (List Char)) :
    s.runWords a split =
      let stages := pipesplit split
      let npipes := stages.length
      if npipes > 2 ∨ npipes = 2 ∧ ¬ a.sys.pipes then some s
      else
        match stages.headD [] with
        | [] => none
        | word :: args =>
          if word = cdCmd then
            some { s with
              fds := pipeFds s.fds npipes
              env := if args.length ≥ 2 then s.env else executeCd a.chdir args.head? s.env }
          else some { s with
            phase := .fork npipes (pipeEnds s.fds npipes) stages.zipIdx
            fds := pipeFds s.fds npipes } := by
  simp only [Session.runWords, pipeFds, pipeEnds]
  split_ifs <;> cases (pipesplit split).headD [] <;> simp only <;> split_ifs <;> rfl

/-- What can become of a line that is cut into stages. -/
inductive Prepares (s : Session) (a : Answers) : List (List (List Char)) → Session → Prop
  | refused {stages : List (List (List Char))}
      (h : stages.length > 2 ∨ stages.length = 2 ∧ ¬ a.sys.pipes) : Prepares s a stages s
  | cd {args : List (List Char)} {stages : List (List (List Char))} {env : List (List Char)}
      (hle : stages.length ≤ 1) (hpipe : stages ≠ [] → a.sys.pipes)
      (henv : env = s.env ∨ env = executeCd a.chdir args.head? s.env) :
      Prepares s a ((cdCmd :: args) :: stages)
        { s with fds := pipeFds s.fds (stages.length + 1), env }
  | fork {word : List Char} {args : List (List Char)} {stages : List (List (List Char))}
      (hcd : word ≠ cdCmd) :
      Prepares s a ((word :: args) :: stages)
        { s with
          phase := .fork (stages.length + 1) (pipeEnds s.fds (stages.length + 1))
            ((word :: args) :: stages).zipIdx
          fds := pipeFds s.fds (stages.length + 1) }

theorem prepares (h : s.runWords a split = some s') : Prepares s a (pipesplit split) s' := by
  rw [runWords_eq] at h
  simp only at h
  generalize pipesplit split = stages at h
  split_ifs at h with hrefused
  · exact Option.some.inj h ▸ .refused hrefused
  obtain ⟨hle, hpipe⟩ := not_or.1 hrefused
  rcases stages with _ | ⟨_ | ⟨word, args⟩, stages⟩
  · cases h
  · cases h
  simp only [List.headD_cons, List.length_cons] at h hle hpipe
  split_ifs at h with hcd hargs
  · subst hcd
    rw [← Option.some.inj h]
    refine .cd (by omega) ?_ (.inl rfl)
    intro hne
    by_contra hno
    exact hpipe ⟨by have := List.length_pos_iff.2 hne; omega, hno⟩
  · subst hcd
    rw [← Option.some.inj h]
    refine .cd (by omega) ?_ (.inr rfl)
    intro hne
    by_contra hno
    exact hpipe ⟨by have := List.length_pos_iff.2 hne; omega, hno⟩
  · exact Option.some.inj h ▸ .fork hcd

/-- The part of a pass that `runLine` describes. -/
theorem runLine_eq (s : Session) (a : Answers) (split : List (List Char)) (hs : s.phase = .prompt) :
    runLine a.sys s.paths split s.fds =
      (s.runWords a split).map fun s' =>
        match s'.phase with
        | .fork npipes ppfd stages =>
          { fds := if npipes = 2 then (s'.fds.close ppfd.1).close ppfd.2 else s'.fds
            children := stages.map fun (stage, t) =>
              childCalls a.sys npipes t ppfd 0 s'.paths stage s'.fds }
        | _ => { fds := s'.fds, children := [] } := by
  rw [runWords_eq]
  simp only [runLine, pipeFds, pipeEnds]
  split_ifs with _ h2 <;> cases (pipesplit split).headD [] <;>
    simp only [Option.map_some, Option.map_none, hs] <;> split_ifs <;> simp [h2]

/-! ## A step -/

/-- What a step can be. -/
inductive Fires (s : Session) : Act → Session → Prop
  | blank {a : Answers} {text : List Char} (hs : s.phase = .prompt)
      (hwords : s.words a text = none) :
      Fires s (.line a text)
        { s with events := s.events ++ [.parse (chomp text) s.env], stale := true }
  | words {a : Answers} {text : List Char} {split : List (List Char)} {s' : Session}
      (hs : s.phase = .prompt) (hwords : s.words a text = some split)
      (h : Prepares { s with events := s.events ++ [.parse (chomp text) s.env], stale := false } a
        (pipesplit split) s') :
      Fires s (.line a text) s'
  | fork {npipes : ℕ} {ppfd : ℕ × ℕ} {stage : List (List Char)} {t : ℕ}
      {stages : List (List (List Char) × ℕ)} {p : ℤ} {sys : System}
      (hs : s.phase = .fork npipes ppfd ((stage, t) :: stages)) (hp : p ∉ s.kids) :
      Fires s (.fork p sys)
        { s with
          phase := .fork npipes ppfd stages
          kids := s.kids ++ [p]
          prcs := s.prcs ++ [p]
          events := s.events ++ (childCalls sys npipes t ppfd 0 s.paths stage s.fds).map
            fun call => .execve call s.env }
  | forked {npipes : ℕ} {ppfd : ℕ × ℕ} (hs : s.phase = .fork npipes ppfd []) :
      Fires s .next
        { s with
          phase := .wait
          fds := if npipes = 2 then (s.fds.close ppfd.1).close ppfd.2 else s.fds }
  | wait {p : ℤ} {prcs : List ℤ} (hs : s.phase = .wait) (hne : s.prcs ≠ [])
      (hp : CanWait s.kids p) (hreap : reap s.prcs p = some prcs) :
      Fires s (.wait p) { s with kids := s.kids.erase p, prcs }
  | waited (hs : s.phase = .wait) (hnil : s.prcs = []) : Fires s .next { s with phase := .prompt }

theorem fires_readLine (hs : s.phase = .prompt) (h : s.readLine a text = some s') :
    Fires s (.line a text) s' := by
  simp only [Session.readLine] at h
  split at h
  next hparse =>
    exact Option.some.inj h ▸ .blank hs (by simp only [Session.words, hparse])
  next word words hparse =>
    split_ifs at h
    exact .words hs (by simp only [Session.words, hparse]) (prepares h)
  next => cases h

theorem fires (h : s.step act = some s') : Fires s act s' := by
  unfold Session.step at h
  split at h
  next a text hs =>
    split_ifs at h
    exact fires_readLine hs h
  next npipes ppfd stage t stages p sys hs =>
    split_ifs at h with hp
    exact Option.some.inj h ▸ .fork hs (not_or.1 hp).1
  next npipes ppfd hs => exact Option.some.inj h ▸ .forked hs
  next p hs =>
    split_ifs at h with hp
    obtain ⟨hne, hcan⟩ := not_or.1 hp
    obtain ⟨prcs, hreap, rfl⟩ := Option.map_eq_some_iff.1 h
    exact .wait hs hne (not_not.1 hcan) hreap
  next hs =>
    split_ifs at h with hnil
    exact Option.some.inj h ▸ .waited hs hnil
  next => cases h

end Sem3.Shell
