import PiBridge.Durable.Context
import Mathlib.Algebra.Order.Ring.Rat

/-!
# `Durable.Compaction` — where a compaction cuts

A compaction summarizes the entries of a context view before a cut and keeps the rest. `selectCut` walks back from the
tail until enough tokens are kept, and cuts at a candidate: an entry that no result belongs before.

Token estimates read what `V` stands for; `Sizes` says how long that is.
-/

namespace PiBridge.Durable

variable {V : Type}

/-! ## Token estimates -/

/-- The lengths of what messages carry unread. -/
structure Sizes (V : Type) where
  /-- The characters of a text or thinking block, of a call's arguments, or of a user's or result's content. -/
  characters : V → Nat
  /-- The tokens of a system message, with its tools. -/
  systemTokens : V → Nat

/-- The sum of some counts. -/
def total (counts : List Nat) : Nat := counts.foldr Nat.add 0

/-- A text's length in UTF-16 code units. -/
def utf16Length (text : String) : Nat := total (text.toList.map fun c => if c.val < 0x10000 then 1 else 2)

/-- `Math.ceil(characters / CHARS_PER_TOKEN)`, at 3.5 characters a token. -/
def tokensOf (characters : Nat) : Nat := (2 * characters + 6) / 7

namespace Sizes

variable (sizes : Sizes V)

def contentCharacters : AssistantContent V → Nat
  | .toolCall call rest => utf16Length call.name + sizes.characters rest
  | .other rest => sizes.characters rest

def resultCharacters : ResultContent V → Nat
  | .unavailable text _ => utf16Length text
  | .other rest => sizes.characters rest

def estimateMessageTokens : Message V → Nat
  | .system rest => sizes.systemTokens rest
  | .user rest => tokensOf (sizes.characters rest)
  | .assistant content _ _ _ => tokensOf (total (content.map sizes.contentCharacters))
  | .toolResult _ _ content _ _ => tokensOf (sizes.resultCharacters content)

/-- The tokens of messages. -/
def estimate (messages : List (MessageObject V)) : Nat := total (messages.map fun m => sizes.estimateMessageTokens m.message)

end Sizes

/-! ## Candidates -/

/-- The identities of a message's calls. -/
def callIds : Message V → List String
  | .assistant content _ _ _ => (toolCalls content).map (·.id)
  | _ => []

/-- The last assistant message of some messages. -/
def lastAssistantOf (messages : List (MessageObject V)) : Option (MessageObject V) := messages.reverse.find? fun m => m.message.isAssistant

/-- The calls of the newest assistant message before an entry. -/
def governingCalls (contributions : List (List (MessageObject V))) (index : Nat) : List String :=
  match (contributions.take index).reverse.findSome? lastAssistantOf with
  | none => []
  | some assistant => callIds assistant.message

/-- Whether no result of these calls comes before the next assistant message. -/
def noneFollows (calls : List String) : List (MessageObject V) → Bool
  | [] => true
  | m :: later =>
    if m.message.isAssistant then true
    else if calls.any fun id => m.message.isResultOf id then false
    else noneFollows calls later

def isCandidate (contributions : List (List (MessageObject V))) (index : Nat) : Bool :=
  match (contributions[index]?.getD []).head? with
  | none => false
  | some first =>
    if first.message.isAssistant then true
    else if !first.message.isUser then false
    else
      -- A result of the preceding assistant's calls that follows this entry belongs before it.
      let calls := governingCalls contributions index
      if calls.isEmpty then true else noneFollows calls (contributions.drop index).flatten

/-! ## The cut -/

/-- The walk back from the tail: the entry at which enough tokens are kept. -/
def reach (sizes : Sizes V) (contributions : List (List (MessageObject V))) (start : Nat) (keepRecentTokens : Rat) : Nat → Nat → Option Nat
  | 0, _ => none
  | index + 1, kept =>
    if index < start then none
    else
      let kept := kept + sizes.estimate (contributions[index]?.getD [])
      if (kept : Rat) < keepRecentTokens then reach sizes contributions start keepRecentTokens index kept else some index

/-- The first entry that may be cut at or summarized: the head marker is neither. -/
def firstEntry (view : ContextView V) : Nat := if view.head.isNone then 0 else 1

/-- The entries a summary may keep first. -/
def candidatesOf (view : ContextView V) : List Nat :=
  (List.range view.contributions.length).filter fun index =>
    decide (firstEntry view ≤ index) && isCandidate view.contributions index

end PiBridge.Durable
