import Extraction.CommandLine.Command

/-!
# Help texts

What each command is for, how it is used, and its flags.
-/

namespace Extraction.CommandLine

namespace Shell

def guide : Shell → String
  | bash => "Generate the autocompletion script for the bash shell.

This script depends on the 'bash-completion' package.
If it is not installed already, you can install it via your OS's package manager.

To load completions in your current shell session:

\tsource <(extractcheck completion bash)

To load completions for every new session, execute once:

#### Linux:

\textractcheck completion bash > /etc/bash_completion.d/extractcheck

#### macOS:

\textractcheck completion bash > $(brew --prefix)/etc/bash_completion.d/extractcheck

You will need to start a new shell for this setup to take effect."
  | fish => "Generate the autocompletion script for the fish shell.

To load completions in your current shell session:

\textractcheck completion fish | source

To load completions for every new session, execute once:

\textractcheck completion fish > ~/.config/fish/completions/extractcheck.fish

You will need to start a new shell for this setup to take effect."
  | powershell => "Generate the autocompletion script for powershell.

To load completions in your current shell session:

\textractcheck completion powershell | Out-String | Invoke-Expression

To load completions for every new session, add the output of the above command
to your powershell profile."
  | zsh => "Generate the autocompletion script for the zsh shell.

If shell completion is not already enabled in your environment you will need
to enable it.  You can execute the following once:

\techo \"autoload -U compinit; compinit\" >> ~/.zshrc

To load completions in your current shell session:

\tsource <(extractcheck completion zsh)

To load completions for every new session, execute once:

#### Linux:

\textractcheck completion zsh > \"$\x7bfpath[1]\x7d/_extractcheck\"

#### macOS:

\textractcheck completion zsh > $(brew --prefix)/share/zsh/site-functions/_extractcheck

You will need to start a new shell for this setup to take effect."

end Shell

namespace Command

def summary : Command → String
  | check => "extractcheck analyzes one or more text selections in a Go source file and
reports, for each, whether the selected statements or expression can be
extracted into a new function without changing the behavior of the program.
For an extractable selection, it reports the new function's parameters,
locals, and result; otherwise, it reports every reason the selection cannot
be extracted.

The optional check argument names the check to run (default: extract).

Examples:
  extractcheck --file=main.go --pos=12,2:15,3
  extractcheck --file=main.go --pos=12,2:15,3 --pos=20,5:20,17
  extractcheck --pos=112,9 --format=json < main.go
  extractcheck --file=main.go --pos=12,2:15,3 --pos=20,5:20,17 --format=table

Exit status is 0 if every selection can be extracted, 1 if the command line
was invalid, 2 if help was displayed, and 3 otherwise."
  | completion => "Generate the autocompletion script for extractcheck for the specified shell.
See each sub-command's help for details on how to use the generated script."
  | script shell => shell.guide
  | suggest _ => "__complete is a special command that is used by the shell completion logic
to request completion choices for the specified command-line."

def path : Command → String
  | check => check.name
  | completion => s!"{check.name} {completion.name}"
  | script shell => s!"{check.name} {completion.name} {shell.name}"
  | suggest described => s!"{check.name} {(suggest described).name}"

def usageLine : Command → String
  | check => s!"{check.path} [flags] [check]"
  | completion => s!"{completion.path} [command]"
  | script .bash => (script .bash).path
  | script shell => s!"{(script shell).path} [flags]"
  | suggest described => s!"{(suggest described).path} [command-line]"

def subcommands : Command → String
  | completion =>
    "\nAvailable Commands:\n" ++ String.join (Shell.all.map fun shell =>
      "  " ++ shell.name ++ String.ofList (List.replicate (12 - shell.name.length) ' ') ++
        shell.synopsis ++ "\n")
  | _ => ""

def hint : Command → String
  | completion =>
    s!"\nUse \"{completion.path} [command] --help\" for more information about a command.\n"
  | _ => ""

def help (c : Command) : String :=
  c.summary ++ "\n\nUsage:\n  " ++ c.usageLine ++ "\n" ++ c.subcommands ++ "\nFlags:\n" ++
    Flag.listing c.name c.flags ++ c.hint

end Command

end Extraction.CommandLine
