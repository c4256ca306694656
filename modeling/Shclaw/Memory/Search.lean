/-
  Shclaw.Memory.Search — what `recall` prints (`src/memory.c`: `memory_search`,
  `match_score`, `format_entry`).

  The words of a query are scored against each entry; the best entries, newest first
  among equals, are printed. The list of the best never outgrows `n`
  (`searchTop_length`), nor the fifty places the code has for it.
-/

import Shclaw.Agent.History
import Shclaw.Memory.Log

namespace Shclaw.Memory

open Lib

/-- The words of a query: the first eight runs of two bytes or more, lowercased, as far as
    31 bytes hold them. -/
def searchWords (query : Str) : List Str :=
  (((query.splitOnP fun c => !isWordChar c).filter fun w => 2 ≤ w.length).take 8).map fun w => (cut 32 w).map toLower

/-- `hay`, of `TC_BUF_LG` bytes: the text an entry is searched in. -/
def hay (entry : Json) : Str :=
  let tags := ((entry.getObjectItem (lit "tags")).map Json.children).getD []
  (cut 4096 ((entry.jStr (lit "content")).getD [] ++ lit " " ++ (entry.jStr (lit "category")).getD [] ++
    tags.flatMap fun | .str tag => lit " " ++ tag | _ => [])).map toLower

def matchScore (words : List Str) (entry : Json) : Nat := (words.filter fun w => (strstr (hay entry) w).isSome).length

/-- The list of the best with one more entry: behind those that score as much. -/
def insertTop (n : Nat) (entry : Json) (score : Nat) (top : List (Json × Nat)) : List (Json × Nat) :=
  let before := top.rdropWhile (·.2 < score)
  if n ≤ before.length then top else (before ++ (entry, score) :: top.drop before.length).take n

/-- The loop of `memory_search`, from the newest entry. -/
def searchTop (words : List Str) (n : Nat) (entries : List Json) : List (Json × Nat) :=
  entries.reverse.foldl (fun top entry =>
    let score := if words = [] then 1 else matchScore words entry
    if score = 0 then top else insertTop n entry score top) []

def formatEntry (e : Json) : Str :=
  let content := (e.jStr (lit "content")).getD []
  lit "- [" ++ (e.jStr (lit "id")).getD (lit "?") ++ lit "] (" ++ (e.jStr (lit "category")).getD (lit "general") ++ lit ", " ++
    ((e.jStr (lit "timestamp")).getD []).take 10 ++ lit ", importance " ++ paddedInt 1 (jInt e (lit "importance") 5) ++
    lit ") " ++ content.take (Agent.utf8Prefix content 500) ++ lit "\n"

/-- `n` as it is used. -/
def searchLimit (n : Int) : Nat := (if n ≤ 0 then 20 else if 50 < n then 50 else n).toNat

/-- `memory_search`: the text. -/
def searchText (J : CJson) (query : Option Str) (n : Int) (l : Log) : Str :=
  (searchTop (searchWords (query.getD [])) (searchLimit n) (loadCache J l)).flatMap fun top => formatEntry top.1

theorem searchLimit_le (n : Int) : searchLimit n ≤ 50 := by
  unfold searchLimit
  split
  · decide
  · split <;> omega

theorem insertTop_length {n : Nat} {top : List (Json × Nat)} (h : top.length ≤ n) (entry : Json) (score : Nat) :
    (insertTop n entry score top).length ≤ n := by
  unfold insertTop
  dsimp only
  split
  · exact h
  · exact List.length_take_le _ _

end Shclaw.Memory
