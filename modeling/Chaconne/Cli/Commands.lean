import Chaconne.Cli.Parser

/-!
# The repository's command definitions

The `COMMAND` definitions of `cli-command.c`, `test.c`, `cpuid.c`, `mdio.c`
and `calc_cmd.c`, in the order the linker places them in `cmd_section` (the
order of `chaconne_srcs`), and the tree `cmd_tree_build_default` builds from
them. Only `cmd_keyword` has option attributes; its `set` callbacks
(`set_strptr`, `set_i32`, `set_bool`) all return 0.
-/

namespace Chaconne.Cli

open CLib

/-- `keyword_attrs`: `argv[0]` into `subcmd`, the values of `third` and
`eleven`. -/
def keywordOptattr : CmdOptAttr :=
  ⟨[⟨0, none, fun _ => 0⟩, ⟨-1, some (bytesOf "third"), fun _ => 0⟩,
    ⟨-1, some (bytesOf "eleven"), fun _ => 0⟩]⟩

/-- The definitions of `cmd_section`, in link order. -/
def repoCmds : List CmdElem :=
  [⟨bytesOf "show history",
     bytesOf "Show running system information\nDisplay ther command history\n",
     .command "show_history", none⟩,
   ⟨bytesOf "show cmdtree",
     bytesOf "Show running system information\nDump command tree (for debug)\n",
     .command "show_cmdtree", none⟩,
   ⟨bytesOf "system .ARGS", bytesOf "system shell\ncommand argument list\n",
     .command "cmd_system", none⟩,
   ⟨bytesOf "keyword (t1|t2) {first|second|third INT} stage {ten|eleven|twelve}",
     bytesOf ("keyword example\nbranch 1\nbranch 2\nfirst\nsecond\nthird\nFILE\nstage\n" ++
       "ten\neleven\ntwelve\n"),
     .command "cmd_keyword", some keywordOptattr⟩,
   ⟨bytesOf "test {-name TEST|-group GROUP}",
     bytesOf "system test\nname option\nspecify test name\ngroup option\nspecify group name\n",
     .command "cmd_test", none⟩,
   ⟨bytesOf "cpuid {-eax UINT|-ecx UINT}",
     bytesOf ("cpuid command\neax option for cpuid\nspecify eax value\n" ++
       "ecx option for cpuid\nspecify ecx value\n"),
     .command "cmd_cpuid", none⟩,
   ⟨bytesOf "mdio (c22|c45) (read|write) IFNAME REGSTR .DATA",
     bytesOf ("mdio register utility\nmdio c22 access\nmdio c45 access\nread operation\n" ++
       "write operation\nethernet interface name\n" ++
       "register format phy.reg[@(page|dev)][.bit_h:bit_l]\nregister data to write\n"),
     .command "cmd_mdio", none⟩,
   ⟨bytesOf "calc .EXP", bytesOf "calculator\narithmetic expression\n",
     .command "cmd_calc_exp", none⟩]

/-- `cmd_tree_build_default`. -/
def repoTree : CmdNode :=
  cmdTreeBuild repoCmds

end Chaconne.Cli
