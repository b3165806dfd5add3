/-
  The fixed parts of a page.
-/

namespace Parlance.Manual

def styleSheet : String :=
"        :root \x7b
            --bg-main: #101214; --bg-sidebar: #171a1d; --bg-card: #1d2125;
            --bg-input: #262a2f; --border: #30353b; --accent: #2f9e8f;
            --text: #ececec; --text-sec: #9aa1a8; --text-muted: #646b72;
            --s-kwd: #c678dd; --s-fn: #61afef; --s-arg: #d19a66;
            --s-ret: #56b6c2; --s-punct: #abb2bf;
        \x7d
        * \x7b box-sizing: border-box; \x7d
        body \x7b margin: 0; font-family: system-ui, sans-serif; background: var(--bg-main); " ++
          "color: var(--text); display: flex; height: 100vh; overflow: hidden; \x7d
        a \x7b text-decoration: none; color: inherit; \x7d
        code, .sig, .p-name, .idx-link, .sr-name \x7b font-family: ui-monospace, monospace; \x7d

        aside \x7b width: 260px; background: var(--bg-sidebar); " ++
          "border-right: 1px solid var(--border); display: flex; flex-direction: column; " ++
          "flex-shrink: 0; \x7d
        .brand \x7b padding: 20px; border-bottom: 1px solid var(--border); \x7d
        .brand h1 \x7b margin: 0; font-size: 1.1rem; \x7d
        .search-container \x7b padding: 15px; position: relative; \x7d
        #search \x7b width: 100%; background: var(--bg-input); border: 1px solid var(--border); " ++
          "color: #fff; padding: 8px 12px; border-radius: 6px; outline: none; \x7d
        #search:focus \x7b border-color: var(--accent); \x7d
        .search-results \x7b position: absolute; top: 100%; left: 10px; right: 10px; " ++
          "background: var(--bg-card); border: 1px solid var(--border); border-radius: 6px; " ++
          "max-height: 400px; overflow-y: auto; display: none; \x7d
        .search-results.visible \x7b display: block; \x7d
        .sr-item \x7b padding: 10px 12px; border-bottom: 1px solid var(--border); cursor: pointer; \x7d
        .sr-item:hover \x7b background: var(--bg-input); \x7d
        .sr-type \x7b font-size: 0.65rem; text-transform: uppercase; color: var(--text-sec); " ++
          "margin-left: 8px; \x7d
        .sr-desc \x7b font-size: 0.8rem; color: var(--text-sec); white-space: nowrap; " ++
          "overflow: hidden; text-overflow: ellipsis; \x7d
        .sr-empty \x7b padding: 15px; text-align: center; color: var(--text-muted); \x7d

        .nav-scroll \x7b flex: 1; overflow-y: auto; padding: 10px 0; \x7d
        .nav-header \x7b font-size: 0.75rem; font-weight: 700; color: var(--text-muted); " ++
          "text-transform: uppercase; margin: 25px 20px 8px 20px; \x7d
        .nav-item \x7b display: block; padding: 6px 20px; color: var(--text-sec); " ++
          "border-left: 2px solid transparent; \x7d
        .nav-item.active \x7b color: #fff; border-left-color: var(--accent); \x7d

        main \x7b flex: 1; overflow-y: auto; \x7d
        .container \x7b max-width: 900px; margin: 0 auto; padding: 40px 60px; \x7d
        .home-grid \x7b display: grid; " ++
          "grid-template-columns: repeat(auto-fill, minmax(260px, 1fr)); gap: 20px; " ++
          "margin-top: 30px; \x7d
        .home-card \x7b background: var(--bg-card); border: 1px solid var(--border); " ++
          "border-radius: 8px; padding: 20px; \x7d
        .home-card:hover \x7b border-color: var(--accent); \x7d
        .hc-badge \x7b font-size: 0.65rem; text-transform: uppercase; font-weight: 700; " ++
          "color: var(--accent); \x7d
        .hc-title \x7b display: block; font-size: 1.2rem; font-weight: 600; margin: 10px 0 5px 0; \x7d
        .hc-desc \x7b font-size: 0.9rem; color: var(--text-sec); \x7d

        .page-header \x7b border-bottom: 1px solid var(--border); padding-bottom: 20px; " ++
          "margin-bottom: 40px; \x7d
        .page-title \x7b font-size: 2.2rem; margin: 0 0 10px 0; \x7d
        .page-desc \x7b color: var(--text-sec); \x7d
        .doc-card \x7b background: var(--bg-card); border: 1px solid var(--border); " ++
          "border-radius: 8px; margin-bottom: 30px; \x7d
        .card-head \x7b padding: 12px 20px; border-bottom: 1px solid var(--border); \x7d
        .card-body \x7b padding: 20px; \x7d
        .desc-text \x7b margin-bottom: 20px; line-height: 1.6; \x7d
        .param-tbl \x7b width: 100%; border-collapse: collapse; \x7d
        .param-tbl td \x7b padding: 5px 0; vertical-align: top; \x7d
        .p-name \x7b width: 120px; color: var(--s-arg); \x7d
        .p-desc \x7b color: var(--text-sec); \x7d
        .lbl \x7b font-size: 0.75rem; font-weight: 700; color: var(--text-muted); " ++
          "text-transform: uppercase; margin: 15px 0 8px 0; display: block; \x7d
        .ret-type \x7b color: var(--s-ret); \x7d
        .idx-tbl \x7b width: 100%; border-collapse: collapse; margin-bottom: 30px; " ++
          "border: 1px solid var(--border); \x7d
        .idx-tbl th \x7b text-align: left; background: var(--bg-input); padding: 10px 15px; " ++
          "color: var(--text-muted); \x7d
        .idx-tbl td \x7b padding: 10px 15px; border-top: 1px solid var(--border); " ++
          "color: var(--text-sec); \x7d
        .idx-link \x7b color: var(--s-fn); \x7d

        .kwd \x7b color: var(--s-kwd); \x7d .fn \x7b color: var(--s-fn); font-weight: 600; \x7d
        .arg \x7b color: var(--s-arg); \x7d .ret \x7b color: var(--s-ret); \x7d " ++
          ".punct \x7b color: var(--s-punct); \x7d
"

/-- How a page searches: names equal to the term first, then those that start with it, then those
that hold it. -/
def searchScript : String :=
"        const searchInput = document.getElementById('search');
        const resultsBox = document.getElementById('searchResults');

        function scoreItem(item, term) \x7b
            const name = item.l.toLowerCase();
            if (name === term) return 100;
            if (name.startsWith(term)) return 50;
            if (name.includes(term)) return 10;
            if ((item.p || '').toLowerCase().includes(term)) return 5;
            return 0;
        \x7d

        function performSearch() \x7b
            const term = searchInput.value.toLowerCase().trim();
            if (term.length < 1) \x7b
                resultsBox.classList.remove('visible');
                return;
            \x7d
            const matches = searchIndex
                .map(item => (\x7b item, score: scoreItem(item, term) \x7d))
                .filter(res => res.score > 0)
                .sort((a, b) => b.score - a.score)
                .slice(0, 10);

            resultsBox.innerHTML = '';
            if (matches.length === 0) \x7b
                resultsBox.innerHTML = '<div class=\"sr-empty\">Aucun résultat</div>';
            \x7d
            matches.forEach(m => \x7b
                const div = document.createElement('div');
                div.className = 'sr-item';
                div.onclick = () => \x7b window.location.href = m.item.u; \x7d;
                const name = document.createElement('span');
                name.className = 'sr-name';
                name.textContent = m.item.l;
                const kind = document.createElement('span');
                kind.className = 'sr-type';
                kind.textContent = m.item.t;
                const desc = document.createElement('div');
                desc.className = 'sr-desc';
                desc.textContent = m.item.d || '';
                div.append(name, kind, desc);
                resultsBox.appendChild(div);
            \x7d);
            resultsBox.classList.add('visible');
        \x7d

        let debounce;
        searchInput.addEventListener('input', () => \x7b
            clearTimeout(debounce);
            debounce = setTimeout(performSearch, 100);
        \x7d);
        document.addEventListener('click', (e) => \x7b
            if (!searchInput.contains(e.target) && !resultsBox.contains(e.target)) \x7b
                resultsBox.classList.remove('visible');
            \x7d
        \x7d);
"

end Parlance.Manual
