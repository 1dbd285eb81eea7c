import Extraction.CommandLine.Command

/-!
# Completion scripts

For each shell a script that has it ask the program for suggestions.  A suggestion ends at a tab;
the last line, after a colon, says what else the shell may do and is no suggestion.
-/

namespace Extraction.CommandLine

/-- The word with which a shell asks for suggestions. -/
def requestWord (described : Bool) : String :=
  if described then "__complete" else "__completeNoDesc"

namespace Shell

def scriptLines (request : String) : Shell → List String
  | bash =>
    ["# bash completion for extractcheck",
      "__extractcheck_complete() \x7b",
      "    local IFS=$'\\n'",
      "    COMPREPLY=($(compgen -W \"$(\"$\x7bCOMP_WORDS[0]\x7d\" " ++ request ++
        " \"$\x7bCOMP_WORDS[@]:1:COMP_CWORD\x7d\" 2>/dev/null | sed -e '/^:/d' -e 's/\\t.*//')\" -- \"$2\"))",
      "\x7d",
      "complete -o default -F __extractcheck_complete extractcheck"]
  | fish =>
    ["# fish completion for extractcheck",
      "function __extractcheck_complete",
      "    set -l words (commandline -opc) (commandline -ct)",
      "    $words[1] " ++ request ++ " $words[2..-1] 2>/dev/null | string match -v ':*'",
      "end",
      "complete -c extractcheck -a '(__extractcheck_complete)'"]
  | powershell =>
    ["# powershell completion for extractcheck",
      "Register-ArgumentCompleter -Native -CommandName 'extractcheck' -ScriptBlock \x7b",
      "    param($word, $ast, $cursor)",
      "    $words = @($ast.CommandElements | Select-Object -Skip 1 | ForEach-Object \x7b $_.ToString() \x7d)",
      "    if ($word -eq '') \x7b $words += '\"\"' \x7d",
      "    extractcheck " ++ request ++
        " @words 2>$null | Where-Object \x7b $_ -notlike ':*' \x7d |",
      "        ForEach-Object \x7b ($_ -split \"\x60t\")[0] \x7d",
      "\x7d"]
  | zsh =>
    ["#compdef extractcheck",
      "_extractcheck() \x7b",
      "    local -a lines",
      "    lines=(\"$\x7b(@f)$($\x7bwords[1]\x7d " ++ request ++
        " \"$\x7b(@)words[2,CURRENT]\x7d\" 2>/dev/null)\x7d\")",
      "    compadd -- $\x7b$\x7blines:#:*\x7d%%$'\\t'*\x7d",
      "\x7d",
      "compdef _extractcheck extractcheck"]

def script (described : Bool) (s : Shell) : String :=
  String.join ((s.scriptLines (requestWord described)).map (· ++ "\n"))

end Shell

end Extraction.CommandLine
