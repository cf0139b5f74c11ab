import StagedLisp.Options
import StagedLisp.Record.Layout
import StagedLisp.Support.Cells
import StagedLisp.Support.Components
import StagedLisp.Support.Deferred
import StagedLisp.Support.Destinations
import StagedLisp.Support.Free
import StagedLisp.Support.Helpers
import StagedLisp.Support.Reuse
import StagedLisp.Support.Weak

/-! Complete generated programs: support, record types, and a main function that prints the value
of a fragment. -/
namespace StagedLisp

/-- The support sections before the record types. Each uses earlier ones only. -/
def Support.sections : List String :=
  cells ++ free ++ weak ++ reuse ++ components ++ deferred ++ destinations

def Program.text (code : String) (registry : Registry) (options : Options) : String :=
  let poolSize := options.poolSize
  let batchSize := options.batchSize
  let result := Text.replaceChar '\n' "\n    " code
  Text.lines ["/* Generated by asapc: ASAP memory management, no tracing collector */"] ++
  Text.lines (if options.withSupport then
      [s!"#define STACK_POOL_SIZE {poolSize}",s!"#define DEFERRED_BATCH_SIZE {batchSize}"] ++
        Support.sections
    else ["#include \"asap_runtime.h\""]) ++
  registry.definitions ++
  Text.lines (if options.withSupport then Support.helpers else []) ++
  Text.lines ["","int main(void) \x7b","    Obj* result = " ++ result ++ ";",
    "    print_obj(result);","    printf(\"\\n\");","    flush_freelist();",
    "    flush_deferred();","    cleanup_weak_refs();","    return 0;","\x7d"]

end StagedLisp
