import MiniC.Parse.CursorSession

/-!
# A cursor as a view of the tokens to come

A cursor keeps the tokens that it has consumed, yet nobody who uses it can tell. Whatever commands a
session runs, its replies and all that it shows of its cursor are those of a `View`, which has only
the tokens to come, the tokens that were to come at the saved copy, and the last token of the list.

## The crux

Two things are read off the consumed tokens: the position, which is their number, and the place of a
cursor at the end, which is that of the latest one. Both are settled by the list as a whole, and no
command changes that: the position is what the list has more than the tokens to come, and at the end
the latest token is the last one of the list (`Cursor.location_eq`).

## The architecture

* **`Session.Effect`** lists what a command can do to a session, and **`Session.effect_run`** says
  that it does one of these. What a command keeps is read off it: both cursors stay in the list
  (`Session.Within`), a cursor that does not go back moves past the tokens it takes, and the copy
  stays until the next one is saved.
* **`Session.view`** forgets what was consumed. **`Session.run_view`** is the square for one
  command, and **`Session.Within.transcript_view`** the one for commands in a row.
* **`Session.position_after`** and **`Session.saved_after`** go from one command to many.
* **`session_views_tokens_to_come`** is the result.
-/

namespace MiniC

namespace Cursor

/-! ## Cursors -/

section Cursors

variable {cursor : Cursor}

theorem advance_of_peek?_eq_none (h : cursor.peek? = none) : cursor.advance = cursor := by
  obtain ⟨consumed, rest⟩ := cursor
  obtain rfl : rest = [] := List.head?_eq_none_iff.1 h
  rfl

/-- An advance over a token moves the position by one. -/
theorem position_advance {token : Token} (h : cursor.peek? = some token) :
    cursor.advance.position = cursor.position + 1 := by
  obtain ⟨consumed, rest⟩ := cursor
  cases rest with
  | nil => cases h
  | cons first rest => rfl

variable (cursor)

theorem isAtEnd_iff : cursor.isAtEnd = true ↔ cursor.remaining = 0 := by
  rw [isAtEnd, remaining, List.isEmpty_iff, List.length_eq_zero_iff]

/-- The position is what the list has more than the tokens to come. -/
theorem position_eq : cursor.position = cursor.toList.length - cursor.rest.length :=
  Nat.eq_sub_of_add_eq cursor.position_add_remaining

/-- The place of a cursor is that of the next token, or else of the last one of the list. -/
theorem location_eq :
    cursor.location = ((cursor.peek?.or cursor.toList.getLast?).map Token.location).getD {} := by
  cases hpeek : cursor.peek? with
  | some token =>
    rw [location_of_peek? hpeek]
    rfl
  | none =>
    cases hlast : cursor.toList.getLast? with
    | some last =>
      rw [location_of_getLast? hpeek hlast]
      rfl
    | none =>
      -- without tokens the cursor is the one before an empty list
      obtain ⟨consumed, rest⟩ := cursor
      obtain ⟨hconsumed, rfl⟩ := List.append_eq_nil_iff.1 (List.getLast?_eq_none_iff.1 hlast)
      obtain rfl := List.reverse_eq_nil_iff.1 hconsumed
      rfl

end Cursors

/-! ## Views -/

/-- What a session shows of its cursor. -/
structure Sight where
  position : Nat
  atEnd : Bool
  remaining : Nat
  location : Location
  deriving DecidableEq, Repr

def sight (cursor : Cursor) : Sight where
  position := cursor.position
  atEnd := cursor.isAtEnd
  remaining := cursor.remaining
  location := cursor.location

/-- A session without what its cursors have consumed. -/
structure View where
  /-- The tokens to come. -/
  rest : List Token
  /-- The tokens that were to come at the copy that was saved last. -/
  saved : List Token
  /-- The last token of the list. -/
  last : Option Token
  deriving DecidableEq, Repr

namespace View

/-- A view at the start of a list. -/
def ofList (tokens : List Token) : View := ⟨tokens, tokens, tokens.getLast?⟩

/-- What a view shows of a cursor in a list of `count` tokens. -/
def sight (count : Nat) (view : View) : Sight where
  position := count - view.rest.length
  atEnd := view.rest.isEmpty
  remaining := view.rest.length
  location := ((view.rest.head?.or view.last).map Token.location).getD {}

/-- Runs one command. -/
def run (view : View) : Command → Reply × View
  | .peek => (.token view.rest.head?, view)
  | .peekKind => (.kind (view.rest.head?.map Token.kind), view)
  | .check kind => (.holds (view.rest.head?.any (·.kind = kind)), view)
  | .advance => (.token view.rest.head?, { view with rest := view.rest.tail })
  | .expect kind expected =>
    match view.rest with
    | [] => (.taken (.error (.unexpectedEnd expected)), view)
    | token :: rest =>
      if token.kind = kind then (.taken (.ok token), { view with rest })
      else (.taken (.error (.unexpectedToken expected token)), view)
  | .save => (.done, { view with saved := view.rest })
  | .restore => (.done, { view with rest := view.saved })

/-- Runs commands in a row; each reply stands beside what can be seen after its command. -/
def transcript (count : Nat) (view : View) : List Command → List (Reply × Sight)
  | [] => []
  | command :: commands =>
    let (reply, next) := view.run command
    (reply, next.sight count) :: next.transcript count commands

end View

/-- Whether a command took the next token, by its reply. -/
def Command.took : Command → Reply → Bool
  | .advance, .token found => found.isSome
  | .expect .., .taken (.ok _) => true
  | _, _ => false

namespace Session

variable {tokens : List Token} {session next : Session} {command : Command}
  {commands : List Command} {took : Bool}

/-! ## What a command does -/

/-- What a command can do to a session, and whether it takes a token. -/
inductive Effect (session : Session) : Command → Bool → Session → Prop where
  | stay {command : Command} : Effect session command false session
  | take {command : Command} {token : Token} (hpeek : session.cursor.peek? = some token) :
      Effect session command true { session with cursor := session.cursor.advance }
  | save : Effect session .save false { session with saved := session.cursor }
  | restore : Effect session .restore false { session with cursor := session.saved }

/-- **Every command has one of these effects**, and its reply says whether it took a token. -/
theorem effect_run (session : Session) (command : Command) :
    Effect session command (command.took (session.run command).1) (session.run command).2 := by
  cases command with
  | peek | peekKind | check => exact .stay
  | save => exact .save
  | restore => exact .restore
  | advance =>
    dsimp only [run, Command.took]
    cases hpeek : session.cursor.peek? with
    | none =>
      rw [advance_of_peek?_eq_none hpeek]
      exact .stay
    | some token => exact .take hpeek
  | expect kind expected =>
    dsimp only [run, expect]
    cases hpeek : session.cursor.peek? with
    | none => exact .stay
    | some token =>
      dsimp only
      by_cases hkind : token.kind = kind
      · rw [if_pos hkind]
        exact .take hpeek
      · rw [if_neg hkind]
        exact .stay

/-- A command that takes no token leaves the session as it is, unless it copies a cursor. -/
theorem Effect.eq_of_not_took (h : Effect session command false next) (hsave : command ≠ .save)
    (hrestore : command ≠ .restore) : next = session := by
  cases h with
  | stay => rfl
  | save => exact absurd rfl hsave
  | restore => exact absurd rfl hrestore

/-- A command that does not restore moves the cursor by the token it takes, if it takes one. -/
theorem Effect.position_eq (h : Effect session command took next) (hrestore : command ≠ .restore) :
    next.cursor.position = session.cursor.position + if took then 1 else 0 := by
  cases h with
  | stay | save => rfl
  | take hpeek => exact position_advance hpeek
  | restore => exact absurd rfl hrestore

/-- Only `save` changes the copy. -/
theorem Effect.saved_eq (h : Effect session command took next) (hsave : command ≠ .save) :
    next.saved = session.saved := by
  cases h with
  | stay | take | restore => rfl
  | save => exact absurd rfl hsave

/-- Both cursors of a session stand in one list. -/
structure Within (tokens : List Token) (session : Session) : Prop where
  cursor_list_eq : session.cursor.toList = tokens
  saved_list_eq : session.saved.toList = tokens

theorem within_ofList (tokens : List Token) : Within tokens (.ofList tokens) := ⟨rfl, rfl⟩

/-- No command leads a cursor into another list. -/
theorem Effect.within (h : Effect session command took next) (hwithin : Within tokens session) :
    Within tokens next := by
  obtain ⟨hcursor, hsaved⟩ := hwithin
  cases h with
  | stay => exact ⟨hcursor, hsaved⟩
  | take => exact ⟨(toList_advance _).trans hcursor, hsaved⟩
  | save => exact ⟨hcursor, hcursor⟩
  | restore => exact ⟨hsaved, hsaved⟩

/-! ## A session and its view -/

/-- What is left of a session in a list without what its cursors have consumed. -/
def view (tokens : List Token) (session : Session) : View :=
  ⟨session.cursor.rest, session.saved.rest, tokens.getLast?⟩

/-- A view shows what the session shows: the position and the place can be told from the list. -/
theorem Within.sight_view (h : Within tokens session) :
    (session.view tokens).sight tokens.length = session.cursor.sight := by
  rw [sight, position_eq, location_eq, h.cursor_list_eq]
  rfl

/-- **One command** has the same reply in a session and in its view, and the view follows. -/
theorem run_view (tokens : List Token) (session : Session) (command : Command) :
    (session.view tokens).run command =
      ((session.run command).1, (session.run command).2.view tokens) := by
  obtain ⟨⟨consumed, rest⟩, saved⟩ := session
  cases command with
  | peek | peekKind | save | restore => rfl
  | check kind => cases rest <;> rfl
  | advance => cases rest <;> rfl
  | expect kind expected =>
    cases rest with
    | nil => rfl
    | cons token rest =>
      dsimp only [view, View.run, run, expect, peek?, List.head?_cons]
      by_cases hkind : token.kind = kind
      · rw [if_pos hkind, if_pos hkind]
        rfl
      · rw [if_neg hkind, if_neg hkind]

/-- **Commands in a row** have the same replies, and show the same. -/
theorem Within.transcript_view (h : Within tokens session) (commands : List Command) :
    (session.view tokens).transcript tokens.length commands =
      (session.transcript commands).map (Prod.map id sight) := by
  induction commands generalizing session with
  | nil => rfl
  | cons command commands ih =>
    have hnext := (effect_run session command).within h
    rw [View.transcript, run_view]
    dsimp only
    rw [hnext.sight_view, ih hnext]
    rfl

/-! ## Sessions after some commands -/

/-- A session after some commands. -/
def after (session : Session) (commands : List Command) : Session :=
  commands.foldl (fun session command => (session.run command).2) session

/-- Commands can be run in two rounds. -/
theorem after_append (session : Session) (commands more : List Command) :
    session.after (commands ++ more) = (session.after commands).after more :=
  List.foldl_append

theorem transcript_append (session : Session) (commands more : List Command) :
    session.transcript (commands ++ more) =
      session.transcript commands ++ (session.after commands).transcript more := by
  induction commands generalizing session with
  | nil => rfl
  | cons command commands ih => exact congrArg (_ :: ·) (ih (session.run command).2)

theorem Within.after (h : Within tokens session) (commands : List Command) :
    Within tokens (session.after commands) := by
  induction commands generalizing session with
  | nil => exact h
  | cons command commands ih => exact ih ((effect_run session command).within h)

/-- The number of tokens that some commands take in a session. -/
def taken (session : Session) (commands : List Command) : Nat :=
  (commands.zip (session.transcript commands)).countP fun (command, reply, _) => command.took reply

/-- The tokens taken are counted command by command. -/
theorem taken_cons (session : Session) (command : Command) (commands : List Command) :
    session.taken (command :: commands) =
      (if command.took (session.run command).1 then 1 else 0) +
        (session.run command).2.taken commands := by
  rw [taken, transcript, List.zip_cons_cons, List.countP_cons, Nat.add_comm]
  rfl

/-- **Without going back** a cursor moves past the tokens that are taken. -/
theorem position_after (session : Session) (hrestore : .restore ∉ commands) :
    (session.after commands).cursor.position =
      session.cursor.position + session.taken commands := by
  induction commands generalizing session with
  | nil => rfl
  | cons command commands ih =>
    have hstep := (effect_run session command).position_eq (List.ne_of_not_mem_cons hrestore).symm
    rw [taken_cons, ← Nat.add_assoc, ← hstep]
    exact ih (session.run command).2 (List.not_mem_of_not_mem_cons hrestore)

/-- **The copy stays** until the next one is saved. -/
theorem saved_after (session : Session) (hsave : .save ∉ commands) :
    (session.after commands).saved = session.saved := by
  induction commands generalizing session with
  | nil => rfl
  | cons command commands ih =>
    rw [← (effect_run session command).saved_eq (List.ne_of_not_mem_cons hsave).symm]
    exact ih (session.run command).2 (List.not_mem_of_not_mem_cons hsave)

end Session

/-! ## The main theorem -/

/-- **A cursor is a view of the tokens to come.** Every session has the transcript of its view.
After any commands the tokens to come are the list from the position on: the next one has the
position for its index, and where there is none the place is that of the last token of the list.
Position and rest make up the list, and the cursor is at the end exactly if nothing remains and
nothing is to be seen.
Commands that do not restore, at the start or behind any others, move the cursor by the number of
tokens they take. An expectation that is not met changes nothing, nor does an advance at the end.
What is restored is the cursor that was saved last, whatever has happened since. -/
theorem session_views_tokens_to_come (tokens : List Token) :
    let start := Session.ofList tokens
    let after commands := start.after commands
    (∀ commands, (View.ofList tokens).transcript tokens.length commands =
      (start.transcript commands).map (Prod.map id sight)) ∧
    (∀ commands command,
      let reply := ((after commands).run command).1
      start.transcript (commands ++ [command]) =
        start.transcript commands ++ [(reply, (after (commands ++ [command])).cursor)]) ∧
    (∀ commands,
      let cursor := (after commands).cursor
      cursor.rest = tokens.drop cursor.position ∧
      cursor.peek? = tokens[cursor.position]? ∧
      cursor.location = ((cursor.peek?.or tokens.getLast?).map Token.location).getD {} ∧
      cursor.position + cursor.remaining = tokens.length ∧
      (cursor.isAtEnd = true ↔ cursor.remaining = 0) ∧
      (cursor.remaining = 0 ↔ cursor.peek? = none)) ∧
    (∀ before since, .restore ∉ since →
      (after (before ++ since)).cursor.position =
        (after before).cursor.position + (after before).taken since) ∧
    (∀ before,
      let session := after before
      (∀ kind expected error,
        (session.run (.expect kind expected)).1 = .taken (.error error) →
          (session.run (.expect kind expected)).2 = session) ∧
      (session.cursor.isAtEnd = true → session.run .advance = (.token none, session))) ∧
    ∀ before between, .save ∉ between →
      (after (before ++ .save :: between ++ [.restore])).cursor = (after before).cursor := by
  intro start after
  have hafter (commands more : List Command) :
      after (commands ++ more) = (after commands).after more := start.after_append commands more
  have hwithin := Session.within_ofList tokens
  refine ⟨hwithin.transcript_view, fun commands command => ?_, fun commands => ?_,
    fun before since hrestore => ?_, fun before => ⟨fun kind expected error hreply => ?_, ?_⟩,
    fun before between hsave => ?_⟩
  · rw [hafter]
    exact start.transcript_append commands [command]
  · intro cursor
    have hlist : cursor.toList = tokens := (hwithin.after commands).cursor_list_eq
    refine ⟨?_, ?_, ?_, ?_, cursor.isAtEnd_iff, cursor.peek?_eq_none_iff.symm⟩
    · rw [← hlist, cursor.drop_position]
    · rw [← hlist, cursor.getElem?_position]
    · rw [← hlist, ← cursor.location_eq]
    · rw [cursor.position_add_remaining, hlist]
  · rw [hafter]
    exact (after before).position_after hrestore
  · have heffect := (after before).effect_run (.expect kind expected)
    rw [hreply] at heffect
    exact heffect.eq_of_not_took nofun nofun
  · intro hend
    have hpeek := (peek?_eq_none_iff _).2 ((isAtEnd_iff _).1 hend)
    rw [Session.run, hpeek, advance_of_peek?_eq_none hpeek]
  · -- the last command takes the copy, which was saved in front of `between`
    rw [hafter, hafter]
    exact Session.saved_after ((after before).run .save).2 hsave

end Cursor

end MiniC
