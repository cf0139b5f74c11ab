/-! Deferred releases of the generated program. -/
namespace StagedLisp.Support

def deferred : List String := [
  "",
  "/* Deferred release, bounded work per safe point */",
  "typedef struct DeferredEntry \x7b",
  "    Obj* obj;",
  "    int count;",
  "    struct DeferredEntry* next;",
  "\x7d DeferredEntry;",
  "",
  "static DeferredEntry* DEFERRED_HEAD = NULL;",
  "static DeferredEntry* DEFERRED_TAIL = NULL;",
  "static int DEFERRED_PENDING = 0;",
  "static long TOTAL_DEFERRED = 0;",
  "",
  "static void deferred_release(Obj* x) \x7b",
  "    DeferredEntry* e;",
  "    if (!x || is_stack_obj(x)) return;",
  "    for (e = DEFERRED_HEAD; e; e = e->next) \x7b",
  "        if (e->obj == x) \x7b",
  "            e->count++;",
  "            return;",
  "        \x7d",
  "    \x7d",
  "    e = malloc(sizeof(DeferredEntry));",
  "    if (!e) \x7b",
  "        dec_ref(x);",
  "        return;",
  "    \x7d",
  "    e->obj = x;",
  "    e->count = 1;",
  "    e->next = NULL;",
  "    if (DEFERRED_TAIL) DEFERRED_TAIL->next = e;",
  "    else DEFERRED_HEAD = e;",
  "    DEFERRED_TAIL = e;",
  "    DEFERRED_PENDING++;",
  "    TOTAL_DEFERRED++;",
  "\x7d",
  "",
  "static void safe_point(void) \x7b",
  "    int budget = DEFERRED_BATCH_SIZE;",
  "    while (budget-- > 0 && DEFERRED_HEAD) \x7b",
  "        DeferredEntry* e = DEFERRED_HEAD;",
  "        dec_ref(e->obj);",
  "        if (--e->count == 0) \x7b",
  "            DEFERRED_HEAD = e->next;",
  "            if (!DEFERRED_HEAD) DEFERRED_TAIL = NULL;",
  "            DEFERRED_PENDING--;",
  "            free(e);",
  "        \x7d",
  "    \x7d",
  "\x7d",
  "",
  "static void flush_deferred(void) \x7b",
  "    while (DEFERRED_HEAD) safe_point();",
  "\x7d"]

end StagedLisp.Support
